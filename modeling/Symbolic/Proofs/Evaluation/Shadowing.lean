import Symbolic.Proofs.Evaluation.Blocks
import Symbolic.Proofs.Substitution

/-!
Constants around other local variables. `With` puts a constant in place of every occurrence of its variable, also
where a construct in its body declares that variable anew. Main statement: `With[{x = a}, op[{x = b}, body]]` comes to
what `op[{a = b}, body]` comes to, with `a` in place of `x` in the body, or fails if `x` is a head of the inner
construct. The inner construct then declares nothing: `With` goes on with the body, `Module` fails, and `Block` goes on
with the body in a context in which every symbol is what it was.
-/
namespace Symbolic

open Value Session

/-- A construct with one declared variable, which need not be a symbol. -/
def ScopeOp.binding (op : ScopeOp) (target v body : Value) : Value :=
  call op.name [ofItems [call "Set" [target, v]], body]

def ScopeOp.heads (op : ScopeOp) : List String := [op.name, "Set", "List"]

theorem evaluate_yields_atom {fuel : Nat} {c : ContextId} {a : Value} (atom : a.isAtom = true) :
    (evaluate (fuel + 1) c a).Yields (· = a) := by
  intro s r t run
  rw [evaluate, deeper_eq, evaluateWith_atom atom] at run
  split at run
  · cases run
  · cases run
    rfl

section Substitution

variable {x : String} {a b body : Value} {op : ScopeOp}

theorem canHead_atom (atom : a.isAtom = true) : a.canHead = false := by
  cases a with
  | symbol | expr => cases atom
  | _ => rfl

theorem substitute_sym (x f : String) (a : Value) :
    (sym f).substitute false [(⟨x⟩, a)] = .ok (if f = x then a else sym f) := by
  rw [sym, substitute]
  by_cases same : f = x <;> simp [Bindings.lookup, same]

/-- A call keeps its head, unless that is the symbol that is replaced, which an atom cannot head. -/
theorem substitute_call (atom : a.isAtom = true) (f : String) (as : List Value) :
    (call f as).substitute false [(⟨x⟩, a)] =
      (substituteAll false [(⟨x⟩, a)] as).bind fun bs =>
        if f = x then .error (.headNotCallable a.kind) else .ok (call f bs) := by
  rw [call, substitute_expr rfl, substitute_sym]
  cases substituteAll false [(⟨x⟩, a)] as with
  | error e => rfl
  | ok bs =>
    by_cases same : f = x
    · simp only [same, if_true]
      show a.build bs .empty = _
      rw [build, canHead_atom atom]
      rfl
    · simp only [same, if_false]
      rfl

theorem substitute_call_ok {f : String} {as : List Value} {r : Value} (atom : a.isAtom = true) :
    (call f as).substitute false [(⟨x⟩, a)] = .ok r ↔
      f ≠ x ∧ ∃ bs, substituteAll false [(⟨x⟩, a)] as = .ok bs ∧ r = call f bs := by
  rw [substitute_call atom]
  cases substituteAll false [(⟨x⟩, a)] as with
  | error e => simp [Except.bind]
  | ok bs => by_cases same : f = x <;> simp [Except.bind, same, eq_comm]

theorem substitute_declaration (second : b.isAtom = true) :
    substituteAll false [(⟨x⟩, a)] [sym x, b] = .ok [a, b] := by
  rw [substituteAll, substitute_sym, if_pos rfl, substituteAll, substitute_other (canHead_atom second)]
  rfl

/-- The variable of the inner construct is replaced where it is declared. -/
theorem substitute_apply (first : a.isAtom = true) (second : b.isAtom = true) (free : x ∉ op.heads) :
    (op.apply x b body).substitute false [(⟨x⟩, a)] = (body.substitute false [(⟨x⟩, a)]).map (op.binding a b) := by
  have other : ∀ f ∈ op.heads, f ≠ x := fun f member same => free (same ▸ member)
  have locals : (ofItems [call "Set" [sym x, b]]).substitute false [(⟨x⟩, a)] = .ok (ofItems [call "Set" [a, b]]) := by
    have set : (call "Set" [sym x, b]).substitute false [(⟨x⟩, a)] = .ok (call "Set" [a, b]) :=
      (substitute_call_ok first).2 ⟨other "Set" (by simp [ScopeOp.heads]), _, substitute_declaration second, rfl⟩
    refine (substitute_call_ok first).2 ⟨other "List" (by simp [ScopeOp.heads]), _, ?_, rfl⟩
    rw [substituteAll, set, substituteAll]
    rfl
  have name : op.name ≠ x := other op.name (by simp [ScopeOp.heads])
  rw [ScopeOp.apply, substitute_call first, substituteAll, locals, substituteAll, substituteAll]
  simp only [name, if_false]
  cases body.substitute false [(⟨x⟩, a)] <;> rfl

theorem substitute_apply_head (b body : Value) (first : a.isAtom = true) (head : x ∈ op.heads) :
    ∃ k, (op.apply x b body).substitute false [(⟨x⟩, a)] = .error (.headNotCallable k) := by
  cases run : (op.apply x b body).substitute false [(⟨x⟩, a)] with
  | error e =>
    obtain ⟨k, rfl⟩ := substitute_error run
    exact ⟨k, rfl⟩
  | ok r =>
    obtain ⟨name, bs, args, -⟩ := (substitute_call_ok first).1 run
    obtain ⟨_, _, locals, -⟩ := List.forall₂_cons_left_iff.1 (substituteAll_ok.1 args)
    obtain ⟨list, cs, items, -⟩ := (substitute_call_ok first).1 locals
    obtain ⟨_, _, item, -⟩ := List.forall₂_cons_left_iff.1 (substituteAll_ok.1 items)
    have declared := ((substitute_call_ok first).1 item).1
    simp only [ScopeOp.heads, List.mem_cons, List.not_mem_nil, or_false] at head
    rcases head with same | same | same
    · exact absurd same.symm name
    · exact absurd same.symm declared
    · exact absurd same.symm list

end Substitution

section Constructs

variable {ev : Evaluator} {fuel : Nat} {c : ContextId} {s : Session} {x : String} {a b e body target v : Value}

theorem withScope_binding :
    Scope.withScope ev c e [ofItems [call "Set" [target, v]], body] =
      ev c v >>= fun w => Step.ofExcept (requireKeys [target]) >>= fun _ =>
        Step.ofExcept (body.substituteTable false [(target, w)]) >>= ev c := by
  have locals : Scope.locals (ofItems [call "Set" [target, v]]) = [.initial target v] := rfl
  simp only [Scope.withScope, locals, Scope.constants, bind_assoc, pure_bind, writeKey]

theorem evaluate_binding (fuel : Nat) (op : ScopeOp) (target v : Value) (standard : s.registry = Builtin.standard)
    (undefined : s.Undefined c op.name) (unarranged : s.Unarranged c op.name)
    (single : body.argsOf? "Sequence" = none) :
    evaluate (fuel + 2) c (op.binding target v body) s =
      deeper (op.run (evaluate (fuel + 1)) c (op.binding target v body) [ofItems [call "Set" [target, v]], body] >>=
        again (evaluate (fuel + 1)) c (op.binding target v body)) s := by
  have held : ∀ d ∈ [ofItems [call "Set" [target, v]], body], d.argsOf? "Sequence" = none := by
    intro d member
    rcases List.mem_pair.1 member with rfl | rfl
    · rfl
    · exact single
  cases op with
  | constant =>
    have verbatim : Verbatim "With" .withScope := ⟨rfl, by decide, by decide⟩
    exact evaluate_held verbatim standard undefined unarranged held
  | newSymbol =>
    have verbatim : Verbatim "Module" .moduleScope := ⟨rfl, by decide, by decide⟩
    exact evaluate_held verbatim standard undefined unarranged held
  | newContext =>
    have verbatim : Verbatim "Block" .blockScope := ⟨rfl, by decide, by decide⟩
    exact evaluate_held verbatim standard undefined unarranged held

/-- `With` evaluates its body with the constant in place of the variable. -/
theorem withScope_constant (atom : a.isAtom = true) :
    Scope.withScope (evaluate (fuel + 1)) c e [ofItems [call "Set" [sym x, a]], body] =
      evaluate (fuel + 1) c a >>= fun _ =>
        Step.ofExcept (body.substitute false [(⟨x⟩, a)]) >>= evaluate (fuel + 1) c := by
  rw [withScope_binding]
  refine (evaluate_yields_atom atom).bind_congr ?_
  rintro _ rfl
  rfl

theorem evaluate_constant (fuel : Nat) (atom : a.isAtom = true) (standard : s.registry = Builtin.standard)
    (undefined : s.Undefined c "With") (unarranged : s.Unarranged c "With") (single : body.argsOf? "Sequence" = none) :
    evaluate (fuel + 2) c (ScopeOp.constant.apply x a body) s =
      deeper ((evaluate (fuel + 1) c a >>= fun _ => Step.ofExcept (body.substitute false [(⟨x⟩, a)]) >>=
        evaluate (fuel + 1) c) >>= again (evaluate (fuel + 1)) c (ScopeOp.constant.apply x a body)) s := by
  refine (evaluate_binding fuel .constant (sym x) a standard undefined unarranged single).trans ?_
  rw [ScopeOp.run, withScope_constant atom]
  rfl

theorem requireKeys_atom (atom : a.isAtom = true) : requireKeys [a] = .ok () := by
  cases a with
  | null | bool | number | text => rfl
  | _ => cases atom

theorem symbol_of_atom (atom : a.isAtom = true) : a.symbol? = none := by
  cases a with
  | symbol | expr => cases atom
  | _ => rfl

/-- A constant with a constant for a variable changes nothing in its body. -/
theorem withScope_undeclared (atom : a.isAtom = true) (headed : body.isHeaded = true) :
    Scope.withScope ev c e [ofItems [call "Set" [a, v]], body] = ev c v >>= fun _ => ev c body := by
  have unchanged : ∀ w, body.substituteTable false [(a, w)] = .ok body := by
    intro w
    have nothing : [(a, w)].filterMap (fun d => d.1.symbol?.map (·, d.2)) = Bindings.empty.entries := by
      rw [List.filterMap_cons, symbol_of_atom atom]
      rfl
    rw [substituteTable, nothing]
    exact substitute_apart headed (isApart_of_isEmpty rfl body)
  rw [withScope_binding, requireKeys_atom atom]
  simp only [unchanged]
  rfl

theorem moduleScope_undeclared (atom : a.isAtom = true) :
    Scope.moduleScope ev c e [ofItems [call "Set" [a, v]], body] = Step.fail .noSuchField := by
  have fresh : Scope.freshFor a = Step.fail .noSuchField := by
    cases a with
    | symbol | expr => cases atom
    | _ => rfl
  have locals : Scope.locals (ofItems [call "Set" [a, v]]) = [.initial a v] := rfl
  simp only [Scope.moduleScope, locals, Scope.rename, fresh]
  rfl

theorem same_symbol_of_atom (atom : a.isAtom = true) (y : Symbol) : a.same (.symbol y) = false := by
  refine Bool.eq_false_iff.2 fun same => ?_
  rw [same_symbol_iff.1 same] at atom
  cases atom

/-- A block with a constant for a variable evaluates its body in a context in which every symbol is what it is in the
context of the block. -/
theorem blockScope_undeclared (fuel : Nat) (e body : Value) (first : a.isAtom = true) (second : b.isAtom = true)
    (here : c < s.contexts.size) (room : (s.depth + 2 : Int) ≤ s.recursionLimit) :
    ∃ l u, Scope.blockScope (evaluate (fuel + 1)) c e [ofItems [call "Set" [a, b]], body] s.entered =
        blockBody (evaluate (fuel + 1)) c s.contexts.size [(a, l)] body u ∧
      Persists s u ∧ ∀ y, (∀ k, u.definitions? s.contexts.size (.symbol y) k = s.definitions? c (.symbol y) k) ∧
        u.attributesOf s.contexts.size (.symbol y) = s.attributesOf c (.symbol y) := by
  generalize begun : (s.entered.newContext "Block" (some c)).2 = t
  have deep : t.depth = s.depth + 1 := begun ▸ rfl
  have limit : t.recursionLimit = s.recursionLimit := begun ▸ rfl
  have made : t.contexts[s.contexts.size]? = some (.fresh "Block" (some c)) :=
    begun ▸ Array.getElem?_push.trans (if_pos rfl)
  have before : Persists s t := begun ▸ (shadowed_newContext s c).persists
  have value : evaluate (fuel + 1) c b t = .ok b t := by
    rw [evaluate_atom second (by omega), exited_entered (by omega)]
  obtain ⟨l, u, noting⟩ : ∃ l u, Scope.ownList c a t = .ok l u := by
    rcases Scope.ownList_cases c a t with ⟨_, unfit, _⟩ | ⟨l, _, ran⟩ | ⟨_, ran⟩
    · cases (requireKeys_atom first).symm.trans unfit
    · exact ⟨l, t, ran⟩
    · exact ⟨_, _, ran⟩
  obtain ⟨persists, contexts, -⟩ := ownList_ok noting
  have shadowing : Scope.shadow (evaluate (fuel + 1)) c s.contexts.size [] [.initial a b] t =
      .ok [(a, l)] (u.define s.contexts.size a .own [⟨a, b, .null⟩]) :=
    (Step.bind_of_ok value).trans (Step.bind_of_ok noting)
  have kept := (before.trans persists).define (Nat.le_refl _) a .own [⟨a, b, .null⟩]
  refine ⟨l, _, ?_, kept, fun y => ?_⟩
  · rw [blockScope_eq, begun]
    exact Step.bind_of_ok shadowing
  · have child : (u.define s.contexts.size a .own [⟨a, b, .null⟩]).contexts[s.contexts.size]? =
        some ((Context.fresh "Block" (some c)).setList a .own u.lists.size) := by
      rw [contexts_define, if_pos rfl, contexts, made]
      rfl
    -- The context of the block says nothing about symbols, so they are looked up in its parent.
    have inherits : ∀ {α : Type} (f : Context → Option α),
        f ((Context.fresh "Block" (some c)).setList a .own u.lists.size) = none →
        (u.define s.contexts.size a .own [⟨a, b, .null⟩]).nearest f s.contexts.size = s.nearest f c := by
      intro α f absent
      rw [nearest_of_parent child absent, ← kept.nearest here f]
      exact if_pos here
    refine ⟨fun k => inherits _ ?_, congrArg (Option.getD · []) (inherits _ rfl)⟩
    rw [Context.entry_setList, same_symbol_of_atom first]
    rfl

end Constructs

/-- A constant takes the place of its variable also where an inner construct declares it. If the variable is a head of
the inner construct, that fails; otherwise the inner construct is evaluated with the constant as the variable that it
declares. So it declares nothing: its initial value is not used, or it fails, or its body is evaluated where every
symbol is what it was. By itself an inner `With` puts its own constant in place of the variable. -/
theorem outer_constant_replaces_declaration (op : ScopeOp) {x : String} {a b : Value} (first : a.isAtom = true)
    (second : b.isAtom = true) {c : ContextId} {s : Session} (standard : s.registry = Builtin.standard)
    (undefined : s.Undefined c "With") (unarranged : s.Unarranged c "With") (body : Value) (fuel : Nat) :
    let outer := ScopeOp.constant.apply x a (op.apply x b body)
    (x ∈ op.heads → ∃ k, evaluate (fuel + 2) c outer s =
      deeper (evaluate (fuel + 1) c a >>= fun _ => Step.fail (.headNotCallable k)) s) ∧
    (x ∉ op.heads → evaluate (fuel + 2) c outer s =
      deeper ((evaluate (fuel + 1) c a >>= fun _ => Step.ofExcept (body.substitute false [(⟨x⟩, a)]) >>= fun filled =>
        evaluate (fuel + 1) c (op.binding a b filled)) >>= again (evaluate (fuel + 1)) c outer) s) ∧
    (body.argsOf? "Sequence" = none → evaluate (fuel + 2) c (ScopeOp.constant.apply x b body) s =
      deeper ((evaluate (fuel + 1) c b >>= fun _ => Step.ofExcept (body.substitute false [(⟨x⟩, b)]) >>=
        evaluate (fuel + 1) c) >>= again (evaluate (fuel + 1)) c (ScopeOp.constant.apply x b body)) s) ∧
    ∀ (t : Session) (filled : Value) (n : Nat), t.registry = Builtin.standard → t.Undefined c op.name →
      t.Unarranged c op.name → filled.argsOf? "Sequence" = none → filled.isHeaded = true →
      let inner := op.binding a b filled
      (op = .constant → evaluate (n + 2) c inner t = deeper ((evaluate (n + 1) c b >>= fun _ =>
        evaluate (n + 1) c filled) >>= again (evaluate (n + 1)) c inner) t) ∧
      (op = .newSymbol → evaluate (n + 2) c inner t = deeper (Step.fail .noSuchField) t) ∧
      (op = .newContext → c < t.contexts.size → (t.depth + 2 : Int) ≤ t.recursionLimit → ∃ l u,
        evaluate (n + 2) c inner t = deeper ((fun _ =>
          blockBody (evaluate (n + 1)) c t.contexts.size [(a, l)] filled u) >>= again (evaluate (n + 1)) c inner) t ∧
        Persists t u ∧ ∀ y, (∀ k, u.definitions? t.contexts.size (.symbol y) k = t.definitions? c (.symbol y) k) ∧
          u.attributesOf t.contexts.size (.symbol y) = t.attributesOf c (.symbol y)) := by
  intro outer
  have single : (op.apply x b body).argsOf? "Sequence" = none := by cases op <;> rfl
  have whole : evaluate (fuel + 2) c outer s = _ := evaluate_constant fuel first standard undefined unarranged single
  refine ⟨fun head => ?_, fun free => ?_, evaluate_constant fuel second standard undefined unarranged,
    fun t filled n standard undefined unarranged single headed => ?_⟩
  · obtain ⟨k, failed⟩ := substitute_apply_head b body first head
    refine ⟨k, whole.trans ?_⟩
    rw [failed, bind_assoc]
    rfl
  · rw [whole, substitute_apply first second free]
    cases body.substitute false [(⟨x⟩, a)] <;> rfl
  · intro inner
    have run := evaluate_binding n op a b standard undefined unarranged single
    refine ⟨?_, ?_, ?_⟩
    · rintro rfl
      rw [run, ScopeOp.run, withScope_undeclared first headed]
    · rintro rfl
      rw [run, ScopeOp.run, moduleScope_undeclared first]
      rfl
    · rintro rfl here room
      obtain ⟨l, u, block, finds⟩ := blockScope_undeclared n inner filled first second here room
      refine ⟨l, u, run.trans (deeper_congr ?_), finds⟩
      exact Step.bind_of_same block

/-- `With[{x = 1}, Module[{x = 2}, f[x]]]` is left with a declaration of `1`, for which `Module` fails. -/
theorem outer_constant_replaces_declaration_module :
    let outer := ScopeOp.constant.apply "x" (int 1) (ScopeOp.newSymbol.apply "x" (int 2) (call "f" [sym "x"]))
    evaluate 8 globalId outer initial =
      deeper ((evaluate 7 globalId (int 1) >>= fun _ =>
        Step.ofExcept ((call "f" [sym "x"]).substitute false [(⟨"x"⟩, int 1)]) >>= fun filled =>
          evaluate 7 globalId (ScopeOp.newSymbol.binding (int 1) (int 2) filled)) >>=
            again (evaluate 7) globalId outer) initial ∧
    evaluate 7 globalId (ScopeOp.newSymbol.binding (int 1) (int 2) (call "f" [int 1])) initial =
      deeper (Step.fail .noSuchField) initial := by
  intro outer
  have silent := initial_bare.silent "With"
  obtain ⟨-, whole, -, inner⟩ := outer_constant_replaces_declaration .newSymbol (x := "x") (a := int 1) (b := int 2)
    rfl rfl rfl silent.toUndefined silent.unarranged (call "f" [sym "x"]) 6
  have quiet := initial_bare.silent "Module"
  obtain ⟨-, fails, -⟩ := inner initial (call "f" [int 1]) 5 rfl quiet.toUndefined quiet.unarranged rfl (by decide)
  exact ⟨whole (by decide), fails rfl⟩

/-- Each construct gives its variable `x` the value `2`, but inside of `With[{x = 1}, …]` the value is `1`, or there is
none. -/
theorem inner_declaration_lost :
    (∀ op : ScopeOp,
      Step.returns (same (int 2)) (evaluate 12 globalId (op.apply "x" (int 2) (sym "x")) initial) = true) ∧
    (∀ op : ScopeOp, op ≠ .newSymbol → Step.returns (same (int 1)) (evaluate 12 globalId
      (ScopeOp.constant.apply "x" (int 1) (op.apply "x" (int 2) (sym "x"))) initial) = true) ∧
    (Step.verdict? (evaluate 12 globalId
      (ScopeOp.constant.apply "x" (int 1) (ScopeOp.newSymbol.apply "x" (int 2) (sym "x"))) initial)).any
        (·.toOption.isNone) = true := by
  refine ⟨fun op => ?_, fun op other => ?_, by decide +kernel⟩
  · cases op <;> decide +kernel
  · cases op with
    | newSymbol => exact absurd rfl other
    | constant | newContext => decide +kernel

end Symbolic
