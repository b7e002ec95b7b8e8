import Symbolic.Proofs.Evaluation.Elementwise
import Symbolic.Proofs.Evaluation.Limits
import Symbolic.Proofs.Evaluation.NumericSafety

/-!
What a value can come to. In many places it is enough to know that a value comes only to values of some kind, if it
comes to anything, and that nothing changes on the way but the count of replacements (`Session.Harmless`). Main
statement: this is known of a call that evaluates its arguments if it is known of the arguments and of what the builtin
makes of them (`leads_call`). The functions of numbers follow, each with what it makes of them.
-/
namespace Symbolic

open Value Session Number
open Arithmetic (orFail lift)

/-! ### What a value leads to -/

namespace Session

variable {s : Session} {c : ContextId} {v : Value} {P Q : Value → Prop} {n : Nat}

/-- With so much fuel, a value comes only to values with a property, and nothing changes but the count of
replacements. -/
def Leads (s : Session) (c : ContextId) (n : Nat) (v : Value) (P : Value → Prop) : Prop :=
  ∀ d i r u, evaluate n c v (s.recount d i) = .ok r u → P r ∧ ∃ j, u = s.recount d j

theorem Harmless.leads (harmless : s.Harmless c v P) (n : Nat) : s.Leads c n v P := fun _ _ _ _ run => harmless.run run

theorem leads_zero : s.Leads c 0 v P := fun _ _ _ _ run => nomatch run

theorem harmless_of_leads (leads : ∀ n, s.Leads c (n + 1) v P) : s.Harmless c v P := by
  intro n
  cases n with
  | zero => exact leads_zero 0 0
  | succ n => exact leads n 0 0

/-- What is known one level deeper is known of the whole evaluation. -/
theorem leads_of_nested (nested : ∀ d i r u, evaluateWith (evaluate n) n c v (s.recount d i) = .ok r u →
    P r ∧ ∃ j, u = s.recount d j) : s.Leads c (n + 1) v P := by
  intro d i r u run
  obtain ⟨-, w, ran, rfl⟩ := deeper_ok.1 run
  obtain ⟨holds, j, rfl⟩ := nested _ _ r w ran
  exact ⟨holds, j, rfl⟩

theorem harmless_atom (atom : v.isAtom = true) : s.Harmless c v (· = v) := by
  refine harmless_of_leads fun n => leads_of_nested fun d i r u run => ?_
  rw [evaluateWith_atom atom] at run
  cases run
  exact ⟨rfl, i, rfl⟩

/-- What a value comes to under limits that are high enough is all that it comes to. -/
theorem harmless_of_comes {k j : Nat} (comes : ∀ recursion iteration, ∃ o, (∀ r, o = .ok r → P r) ∧
    (s.limited recursion iteration).Comes c k j v o) : s.Harmless c v P := by
  intro n r u run
  have kept := (evaluate_keeps n c v).after run
  let levels := max s.recursionLimit (k + 1)
  let replacements := max s.iterationLimit j
  have within : (s.recount 0 0).Within levels replacements := ⟨Int.le_max_left .., Int.le_max_left ..⟩
  have raised := (evaluate_cutOff n c v).raise run within
  obtain ⟨o, holds, comes⟩ := comes levels replacements
  obtain ⟨i, ran⟩ := Comes.evaluate (s := (s.limited levels replacements).recount 0 0)
    (fun n d i => comes n d i) (by simp only [limited, Session.recount, levels]; omega)
    (by simp only [limited, Session.recount, replacements]; omega) n
  cases o with
  | error e => cases (evaluate_more raised (by omega)).symm.trans ran
  | ok q =>
    obtain ⟨rfl, same⟩ := EStateM.Result.ok.inj ((evaluate_more raised (by omega)).symm.trans ran)
    have back := congrArg (fun t : Session => t.limited s.recursionLimit s.iterationLimit) same
    refine ⟨holds _ rfl, i, Eq.trans ?_ back⟩
    have same : u.recursionLimit = s.recursionLimit ∧ u.iterationLimit = s.iterationLimit :=
      ⟨kept.recursionLimit, kept.iterationLimit⟩
    rw [← same.1, ← same.2]
    rfl

/-- A value that comes to nothing comes only to what is asked for. -/
theorem Endless.harmless (endless : s.Endless c v) : s.Harmless c v P := by
  intro n r u run
  have longer := evaluate_more run (show n ≤ n + s.recursionLimit.toNat + 1 by omega)
  by_cases level : (0 : Int) ≤ s.recursionLimit
  · have whole : (s.recount 0 0).Endless c v := endless
    have fuel : s.recursionLimit < (0 : Nat) + (n + s.recursionLimit.toNat + 1 : Nat) := by omega
    obtain ⟨e, t, stopped, -⟩ := whole.stopped level fuel
    cases stopped.symm.trans longer
  · have full : ¬ ((s.recount 0 0).depth + 1 : Int) ≤ s.recursionLimit := by
      simp only [Session.recount]
      omega
    cases (evaluate_exceeded full _ v).symm.trans longer

section Rows

variable {R : Value → Prop} {bs : List Value}

theorem forall₂_single : List.Forall₂ (fun P b => P b) [P] bs ↔ ∃ x, P x ∧ bs = [x] := by
  simp [List.forall₂_cons_left_iff]

theorem forall₂_pair : List.Forall₂ (fun P b => P b) [P, R] bs ↔ ∃ x y, P x ∧ R y ∧ bs = [x, y] := by
  simp [List.forall₂_cons_left_iff]

end Rows

/-- An argument comes only to values with a property, and has the property itself if it is the same as what it comes
to. -/
def Serves (s : Session) (c : ContextId) (a : Value) (P : Value → Prop) : Prop :=
  s.Harmless c a fun b => P b ∧ (b.same a = true → P a)

theorem Harmless.serves (harmless : s.Harmless c v P) (holds : P v) : s.Serves c v P :=
  harmless.mono fun _ this => ⟨this, fun _ => holds⟩

/-- What stays of a row of arguments, once it is evaluated, has the properties of its places. -/
theorem evaluateAll_serves {as bs : List Value} {Ps : List (Value → Prop)} {d i : Nat} {u : Session}
    (serves : List.Forall₂ (s.Serves c) as Ps) (run : evaluateAll (evaluate n) c as (s.recount d i) = .ok bs u) :
    List.Forall₂ (fun P b => P b) Ps (settled as bs) ∧ ∃ j, u = s.recount d j := by
  suffices each : List.Forall₂ (fun P b => P b) Ps bs ∧
      (sameItems bs as = true → List.Forall₂ (fun P a => P a) Ps as) ∧ ∃ j, u = s.recount d j by
    refine ⟨?_, each.2.2⟩
    unfold settled
    split
    · next same => exact each.2.1 same
    · exact each.1
  induction serves generalizing bs i with
  | nil =>
    obtain ⟨rfl, rfl⟩ := Step.pure_ok.1 run
    exact ⟨.nil, fun _ => .nil, i, rfl⟩
  | cons here _ ih =>
    obtain ⟨b, w, ran, rest⟩ := Step.bind_ok run
    obtain ⟨xs, x, others, joined⟩ := Step.bind_ok rest
    obtain ⟨rfl, rfl⟩ := Step.pure_ok.1 joined
    obtain ⟨⟨holds, stays⟩, j, rfl⟩ := here.run ran
    obtain ⟨each, same, finish⟩ := ih others
    refine ⟨.cons holds each, fun items => ?_, finish⟩
    rw [sameItems, Bool.and_eq_true] at items
    exact .cons (stays items.1) (same items.2)

def Fixes (s : Session) (c : ContextId) (v : Value) : Prop := s.Harmless c v (· = v)

theorem fixes_number (x : Number) : s.Fixes c (.number x) := harmless_atom rfl

theorem serves_of_fixes {as : List Value} (rest : ∀ a ∈ as, s.Fixes c a) :
    List.Forall₂ (s.Serves c) as (as.map fun a b => b = a) := by
  rw [List.forall₂_map_right_iff]
  exact List.forall₂_same.2 fun a member => (rest a member).serves rfl

theorem eq_of_fixes {as bs : List Value} (holds : List.Forall₂ (fun P b => P b) (as.map fun a b => b = a) bs) :
    bs = as := by
  rw [List.forall₂_map_left_iff] at holds
  exact (List.forall₂_eq_eq_eq ▸ holds.imp fun _ _ same => same.symm : as = bs).symm

end Session

/-! ### Calls -/

section Calls

variable {s : Session} {c : ContextId} {f : String} {op : Operation} {n : Nat} {P : Value → Prop}

/-- An operation changes nothing, and what it makes of a call has a property once it is evaluated; if it makes
nothing new of it, the call has the property. -/
def Proceeds (s : Session) (c : ContextId) (n : Nat) (op : Operation) (e : Value) (P : Value → Prop) : Prop :=
  ∀ d i q u, op.run (evaluate n) n c e (s.recount d i) = .ok q u →
    (∃ j, u = s.recount d j) ∧ if q.differs e then s.Leads c n q P else P e

theorem proceeds_of_pure {e : Value} {x : Except Error Value}
    (ran : op.run (evaluate n) n c e = Step.ofExcept x)
    (given : ∀ q, x = .ok q → if q.differs e then s.Leads c n q P else P e) : Proceeds s c n op e P := by
  intro d i q u run
  rw [ran] at run
  obtain ⟨made, rfl⟩ := Step.ofExcept_ok.1 run
  exact ⟨⟨i, rfl⟩, given q made⟩

variable (provides : s.Provides c f op)

include provides

theorem leads_starved {a : Value} {as : List Value} : s.Leads c 1 (call f (a :: as)) P := by
  refine leads_of_nested fun d i r u run => ?_
  have attrs : (s.recount d i).effectiveAttributes c (sym f) .empty = markings f :=
    effectiveAttributes_unmarked provides.standard (attributesOf_recount.trans provides.silent.unmarked)
  have whole : evaluateWith (evaluate 0) 0 c (call f (a :: as)) (s.recount d i) =
      evaluateBy (evaluate 0) 0 c ((s.recount d i).effectiveAttributes c (sym f) .empty) (sym f) (a :: as) .empty
        (s.recount d i) := evaluateWith_eq
  rw [whole, attrs, evaluateBy] at run
  obtain ⟨k, w, -, run⟩ := Step.bind_ok run
  rw [evaluateOn, evaluateArgs_unheld provides.unheld] at run
  obtain ⟨bs, x, row, -⟩ := Step.bind_ok run
  obtain ⟨b, y, first, -⟩ := Step.bind_ok row
  cases first

/-- A call whose arguments serve leads to what its builtin makes of them, once they are brought in order. -/
theorem leads_call {a : Value} {as : List Value} {Ps : List (Value → Prop)}
    (serves : List.Forall₂ (s.Serves c) (a :: as) Ps)
    (next : ∀ bs, List.Forall₂ (fun P b => P b) Ps bs → ∀ e, arrange (markings f) (call f bs) = .ok e →
      ∃ cs, e = call f cs ∧ (∀ x ∈ cs, x.argsOf? "List" = none) ∧ Proceeds s c n op (call f cs) P) :
    s.Leads c (n + 1) (call f (a :: as)) P := by
  cases n with
  | zero => exact leads_starved provides
  | succ n =>
    refine leads_of_nested fun d i r u run => ?_
    rw [evaluateWith_eager provides] at run
    obtain ⟨bs, w, row, run⟩ := Step.bind_ok run
    obtain ⟨e, x, ordered, run⟩ := Step.bind_ok run
    obtain ⟨arranged, rfl⟩ := Step.ofExcept_ok.1 ordered
    obtain ⟨holds, j, rfl⟩ := evaluateAll_serves serves row
    obtain ⟨cs, rfl, unlisted, proceeds⟩ := next _ holds e arranged
    rw [evaluateArranged_unlisted provides unlisted] at run
    obtain ⟨q, x, ran, run⟩ := Step.bind_ok run
    obtain ⟨⟨k, rfl⟩, goes⟩ := proceeds d j q x ran
    unfold again at run
    split at run
    · next new =>
      rw [if_pos new] at goes
      obtain ⟨_, y, counted, run⟩ := Step.bind_ok run
      cases countReplacement_ok counted
      exact goes _ _ r u run
    · next new =>
      rw [if_neg new] at goes
      obtain ⟨rfl, rfl⟩ := Step.pure_ok.1 run
      exact ⟨goes, k, rfl⟩

end Calls

/-- A call serves where it comes only to values that are no calls of its name. -/
theorem serves_of_apart {s : Session} {c : ContextId} {f : String} {as : List Value} {P : Value → Prop}
    (harmless : s.Harmless c (call f as) P) (apart : ∀ v, P v → v.argsOf? f = none) : s.Serves c (call f as) P := by
  refine harmless.mono fun b holds => ⟨holds, fun same => ?_⟩
  obtain ⟨k, bs, rfl, head, -⟩ := same_expr same
  rw [same_symbol_iff.1 head] at holds
  have other := apart _ holds
  simp [argsOf?] at other

/-- What a sum or product makes of arguments, flattened and sorted, has a property once it is evaluated; if it makes
nothing new of them, the sum or product has the property. -/
structure RingOp.Proceeds (op : RingOp) (s : Session) (c : ContextId) (n : Nat) (bs : List Value) (P : Value → Prop) :
    Prop where
  single : ∀ b ∈ bs, b.argsOf? "Sequence" = none
  given : ∀ cs, (call op.name (flatArgs (sym op.name) bs)).sortArgs = .ok (call op.name cs) →
    cs.Perm (flatArgs (sym op.name) bs) → (∀ x ∈ cs, x.argsOf? "List" = none) ∧
      ∀ q, fold op.name cs = .ok q → if q.differs (call op.name cs) then s.Leads c n q P else P (call op.name cs)

section Given

variable {s : Session} {c : ContextId} {n : Nat} {f : String} {as : List Value} {r e : Value} {P : Value → Prop}

theorem leads_of_new (new : r.differs e = true) (leads : s.Leads c n r P) :
    if r.differs e then s.Leads c n r P else P e := by
  rwa [if_pos new]

/-- What an operation gives is evaluated already if it is an atom or the call. -/
theorem leads_given (given : r = call f as ∨ r.isAtom = true) (holds : P r) :
    if r.differs (call f as) then s.Leads c n r P else P (call f as) := by
  rcases given with rfl | atom
  · rwa [if_neg (Bool.eq_false_iff.1 (differs_self rfl))]
  · refine leads_of_new (differs_of_basic (by rw [atom, Bool.true_or])) ?_
    exact ((harmless_atom atom).mono fun _ same => same ▸ holds).leads n

end Given

/-! ### Functions of numbers -/

section Calculations

variable {s : Session} {c : ContextId} {n : Nat} {P : Value → Prop} {a : Value} {as : List Value}
  {Ps : List (Value → Prop)} (calculates : s.Calculates c) (serves : List.Forall₂ (s.Serves c) (a :: as) Ps)

include calculates serves

/-- A function that does not rearrange its arguments is run on what stays of them. -/
theorem leads_plain {f : Calculation} (sum : f ≠ .plus) (product : f ≠ .times)
    (next : ∀ bs, List.Forall₂ (fun P b => P b) Ps bs →
      (∀ b ∈ bs, b.argsOf? "Sequence" = none ∧ b.argsOf? "List" = none) ∧
        Proceeds s c n f.operation (call f.name bs) P) : s.Leads c (n + 1) (call f.name (a :: as)) P := by
  refine leads_call (calculates.provides f) serves fun bs holds e arranged => ?_
  obtain ⟨single, proceeds⟩ := next bs holds
  rw [arrange_spliced (Calculation.unarranged sum product), inline_of_flat fun b member => (single b member).1]
    at arranged
  exact ⟨bs, (Except.ok.inj arranged).symm, fun b member => (single b member).2, proceeds⟩

/-- A sum or product is run on what stays of its arguments once they are flattened and sorted. -/
theorem leads_ring (op : RingOp) (next : ∀ bs, List.Forall₂ (fun P b => P b) Ps bs → op.Proceeds s c n bs P) :
    s.Leads c (n + 1) (call op.name (a :: as)) P := by
  refine leads_call (provides_ring calculates op) serves fun bs holds e arranged => ?_
  obtain ⟨single, given⟩ := next bs holds
  rw [arrange_nested op single] at arranged
  obtain ⟨cs, perm, rfl⟩ := sortArgs_perm arranged
  obtain ⟨unlisted, given⟩ := given cs arranged perm
  refine ⟨cs, rfl, unlisted, proceeds_of_pure ?_ given⟩
  cases op <;> rfl

omit serves in
theorem leads_ring_fixes (op : RingOp) (rest : ∀ x ∈ a :: as, s.Fixes c x) (next : op.Proceeds s c n (a :: as) P) :
    s.Leads c (n + 1) (call op.name (a :: as)) P :=
  leads_ring calculates (serves_of_fixes rest) op fun _ holds => eq_of_fixes holds ▸ next

end Calculations

namespace Session

/-- An argument comes only to numbers with a property. -/
def Counts (s : Session) (c : ContextId) (a : Value) (p : Number → Prop) : Prop :=
  s.Serves c a fun v => ∃ x, p x ∧ v = .number x

variable {s : Session} {c : ContextId} {a b : Value} {p q : Number → Prop}

theorem counts_number (x : Number) : s.Counts c (.number x) (· = x) :=
  ((harmless_atom rfl).mono fun _ same => ⟨x, rfl, same⟩).serves ⟨x, rfl, rfl⟩

theorem counts_of_callable (harmless : s.Harmless c a fun v => ∃ x, p x ∧ v = .number x)
    (callable : a.canHead = true) : s.Counts c a p := by
  refine harmless.mono fun b holds => ⟨holds, fun same => ?_⟩
  obtain ⟨x, -, rfl⟩ := holds
  rw [number_same callable] at same
  cases same

end Session

section Numbers

variable {s : Session} {c : ContextId} {a b : Value} {p q : Number → Prop} (calculates : s.Calculates c)

theorem forall₂_counts {bs : List Value}
    (holds : List.Forall₂ (fun P b => P b) [fun v => ∃ x, p x ∧ v = .number x, fun v => ∃ x, q x ∧ v = .number x] bs) :
    ∃ x y, p x ∧ q y ∧ bs = [.number x, .number y] := by
  obtain ⟨_, _, ⟨x, first, rfl⟩, ⟨y, second, rfl⟩, rfl⟩ := forall₂_pair.1 holds
  exact ⟨x, y, first, second, rfl⟩

theorem single_numbers (ns : List Number) :
    ∀ b ∈ ns.map Value.number, b.argsOf? "Sequence" = none ∧ b.argsOf? "List" = none := fun b member =>
  ⟨ordinary_numbers ns "Sequence" b member, ordinary_numbers ns "List" b member⟩

theorem fold_numbers (op : RingOp) (ns : List Number) {r : Value} (folded : fold op.name (ns.map .number) = .ok r) :
    ∃ z, r = .number z := by
  have sound := fold_sound ns op
  rw [folded] at sound
  cases r with
  | number z => exact ⟨z, rfl⟩
  | _ => cases sound

theorem exists_numbers (ns : List Number) {vs : List Value} (perm : vs.Perm (ns.map .number)) :
    ∃ ms : List Number, vs = ms.map .number := by
  have each : ∀ v ∈ vs, v ∈ Set.range Value.number := fun v member => by
    obtain ⟨n, -, rfl⟩ := List.mem_map.1 (perm.mem_iff.1 member)
    exact ⟨n, rfl⟩
  have range : vs ∈ Set.range (List.map Value.number) := by
    rw [Set.range_list_map]
    exact each
  obtain ⟨ms, rfl⟩ := range
  exact ⟨ms, rfl⟩

theorem reckon_number {op : RingOp} {x y : Number} {r : Value} (made : op.reckon x y = .ok r) : ∃ z, r = .number z := by
  have ends := reckonAll_ends [x, y] op
  rw [← op.reckon_eq, made] at ends
  cases asked : disordered [x, y] with
  | true => cases ends.fails asked
  | false =>
    have sound := ends.sound asked
    cases r with
    | number z => exact ⟨z, rfl⟩
    | _ => cases sound

include calculates

theorem harmless_reckon (op : RingOp) (first : s.Counts c a p) (second : s.Counts c b q) :
    s.Harmless c (call op.name [a, b]) fun r => ∃ x y, p x ∧ q y ∧ op.reckon x y = .ok r := by
  refine harmless_of_leads fun n => ?_
  refine leads_ring calculates (.cons first (.cons second .nil)) op fun bs holds => ?_
  obtain ⟨x, y, here, there, rfl⟩ := forall₂_counts holds
  have flat : flatArgs (sym op.name) [.number x, .number y] = [.number x, .number y] := rfl
  refine ⟨ordinary_numbers [x, y] "Sequence", fun cs sorted perm => ?_⟩
  rw [flat] at sorted perm
  obtain ⟨ms, rfl⟩ := exists_numbers [x, y] perm
  refine ⟨ordinary_numbers ms "List", fun r folded => ?_⟩
  obtain ⟨z, rfl⟩ := fold_numbers op ms folded
  refine leads_given (.inr rfl) ⟨x, y, here, there, ?_⟩
  rw [RingOp.reckon, sorted]
  exact folded

theorem harmless_power (first : s.Counts c a p) (second : s.Counts c b q) (ordered : ∀ y, q y → y.isComplex = false) :
    s.Harmless c (call "Power" [a, b]) fun r =>
      ∃ x y, p x ∧ q y ∧ Arithmetic.powerOfNumbers (.number x) (.number y) x y = .ok r := by
  refine harmless_of_leads fun n => ?_
  refine leads_plain (f := .power) calculates (.cons first (.cons second .nil)) (by decide) (by decide)
    fun bs holds => ?_
  obtain ⟨x, y, here, there, rfl⟩ := forall₂_counts holds
  refine ⟨single_numbers [x, y], proceeds_of_pure rfl fun r given => ?_⟩
  have unasked : Calculation.power.asksOrder [x, y] = false := by
    rw [Calculation.asksOrder, ordered y there, Bool.and_false]
  exact leads_given ((Calculation.gives_power unasked).plain r given) ⟨x, y, here, there, given⟩

theorem counts_opposite (y : Number) : s.Counts c (call "Times" [int (-1), .number y]) fun m =>
    RingOp.times.reckon (.int (-1)) y = .ok (.number m) := by
  refine counts_of_callable ?_ rfl
  refine (harmless_reckon calculates .times (counts_number (.int (-1))) (counts_number y)).mono ?_
  rintro r ⟨_, _, rfl, rfl, made⟩
  obtain ⟨m, rfl⟩ := reckon_number made
  exact ⟨m, made, rfl⟩

theorem harmless_difference (first : s.Counts c a p) (y : Number) :
    s.Harmless c (call "Subtract" [a, .number y]) fun r =>
      ∃ x m, p x ∧ RingOp.times.reckon (.int (-1)) y = .ok (.number m) ∧ RingOp.plus.reckon x m = .ok r := by
  refine harmless_of_leads fun n => ?_
  refine leads_plain (f := .subtract) calculates (.cons first (.cons (counts_number y) .nil)) (by decide) (by decide)
    fun bs holds => ?_
  obtain ⟨x, y, here, rfl, rfl⟩ := forall₂_counts holds
  refine ⟨single_numbers [x, y],
    proceeds_of_pure (x := .ok (call "Plus" [.number x, call "Times" [int (-1), .number y]])) rfl ?_⟩
  rintro _ ⟨⟩
  refine leads_of_new (differs_call rfl rfl) (Harmless.leads ?_ n)
  refine (harmless_reckon calculates .plus (counts_number x) (counts_opposite calculates y)).mono ?_
  rintro r ⟨_, m, rfl, made, sum⟩
  exact ⟨_, m, here, made, sum⟩

theorem harmless_abs (arg : s.Counts c a p) :
    s.Harmless c (call "Abs" [a]) fun r => ∃ x y, p x ∧ x.abs = .ok y ∧ r = .number y := by
  refine harmless_of_leads fun n => ?_
  refine leads_plain (f := .abs) calculates (.cons arg .nil) (by decide) (by decide) fun bs holds => ?_
  obtain ⟨_, ⟨x, here, rfl⟩, rfl⟩ := forall₂_single.1 holds
  refine ⟨single_numbers [x], proceeds_of_pure (x := lift x.abs) rfl fun r given => ?_⟩
  cases absolute : x.abs with
  | error f =>
    rw [absolute] at given
    cases given
  | ok y =>
    rw [absolute] at given
    cases given
    exact leads_given (.inr rfl) ⟨x, y, here, absolute, rfl⟩

theorem harmless_quotient (first : s.Counts c a p) (second : s.Counts c b q) (nonzero : ∀ y, q y → y.isZero = false) :
    s.Harmless c (call "Divide" [a, b]) fun r =>
      ∃ x y m, p x ∧ q y ∧ y.inverse = .ok m ∧ RingOp.times.reckon x m = .ok r := by
  refine harmless_of_leads fun n => ?_
  refine leads_plain (f := .divide) calculates (.cons first (.cons second .nil)) (by decide) (by decide)
    fun bs holds => ?_
  obtain ⟨x, y, here, there, rfl⟩ := forall₂_counts holds
  refine ⟨single_numbers [x, y], proceeds_of_pure rfl fun r given => ?_⟩
  simp only [Value.args, Arithmetic.divide, number?, nonzero y there, Bool.false_eq_true, if_false] at given
  cases inverse : y.inverse with
  | error f =>
    rw [inverse] at given
    cases given
  | ok m =>
    rw [inverse] at given
    cases given
    refine leads_of_new (differs_call rfl rfl) (Harmless.leads ?_ n)
    refine (harmless_reckon calculates .times (counts_number x) (counts_number m)).mono ?_
    rintro r ⟨_, _, rfl, rfl, made⟩
    exact ⟨_, y, _, here, there, inverse, made⟩

theorem harmless_greater (first : s.Counts c a p) (second : s.Counts c b q) :
    s.Harmless c (call "Greater" [a, b]) fun r =>
      ∃ x y held, p x ∧ q y ∧ x.compare .gt y = .ok held ∧ r = .bool held := by
  refine harmless_of_leads fun n => ?_
  refine leads_plain (f := .order .gt) calculates (.cons first (.cons second .nil)) (by decide) (by decide)
    fun bs holds => ?_
  obtain ⟨x, y, here, there, rfl⟩ := forall₂_counts holds
  refine ⟨single_numbers [x, y], fun d i r u run => ?_⟩
  -- The numbers are evaluated once more before they are compared.
  obtain ⟨_, w, ran, run⟩ := Step.bind_ok run
  obtain ⟨rfl, j, rfl⟩ := (harmless_atom rfl).run ran
  obtain ⟨_, w, ran, run⟩ := Step.bind_ok run
  obtain ⟨rfl, k, rfl⟩ := (harmless_atom rfl).run ran
  replace run : (Step.ofFault (x.compare .gt y) >>= fun held => pure (.bool held) : Eval Value) (s.recount d k) =
    .ok r u := run
  cases compared : x.compare .gt y with
  | error f =>
    rw [compared] at run
    cases run
  | ok held =>
    rw [compared] at run
    cases run
    exact ⟨⟨k, rfl⟩, leads_given (.inr rfl) ⟨x, y, held, here, there, compared, rfl⟩⟩

end Numbers

end Symbolic
