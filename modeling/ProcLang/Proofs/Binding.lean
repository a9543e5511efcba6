import ProcLang.Proofs.Traversal

/-! What binding leaves: operators with operands that they can take, and names with declarations
that are there. -/
namespace ProcLang

open Outcome

theorem Arity.accepts_iff {a : Arity} {count : Nat} :
    a.accepts count = true ↔ a.min ≤ count ∧ ∀ max, a.max = some max → count ≤ max := by
  unfold accepts
  cases a.max <;> simp

namespace Operator

/-- The numbers of operands that the operators with places of their own are used with. -/
def Takes : Operator → Nat → Prop
  | .subtraction, count | .equality, count | .notEquality, count | .assignment, count => count = 2
  | .dereference, count | .reference, count => count = 1
  | _, _ => True

/-- Of signs and names, only the number of operands can be wrong. -/
theorem resolve_reported {token : Token} (h : token.kind.isSign ∨ token.kind = .name)
    (count : Nat) : ReportedBy .binding (resolve token count) := by
  unfold resolve
  cases hk : token.kind with
  | sign s =>
    dsimp only [Arity.ofKind?]
    split
    next => exact faultsIn_ok _
    next => simp [Phase.kinds, Cause.kind]
  | name =>
    dsimp only [Arity.ofKind?]
    split
    next => exact faultsIn_ok _
    next => simp [Phase.kinds, Cause.kind]
  | _ =>
    rw [hk] at h
    rcases h with h | h <;> cases h

theorem ofSign_takes {s : Token.Sign} {count : Nat} (h : (Arity.ofSign s).accepts count = true) :
    (ofSign s count).Takes count := by
  obtain ⟨hmin, hmax⟩ := Arity.accepts_iff.mp h
  cases s with
  | equals | doubleEquals | bangEquals =>
    have hle : count ≤ 2 := hmax 2 rfl
    exact Nat.le_antisymm hle hmin
  | atSign =>
    have hle : count ≤ 1 := hmax 1 rfl
    exact Nat.le_antisymm hle hmin
  | dash =>
    have hle : count ≤ 2 := hmax 2 rfl
    have hge : 1 ≤ count := hmin
    by_cases h1 : count = 1
    · simp [ofSign, Takes, h1]
    · simp only [ofSign, h1, if_false, Takes]
      omega
  | star =>
    by_cases h1 : count = 1
    · simp [ofSign, Takes, h1]
    · simp [ofSign, Takes, h1]
  | _ => exact trivial

/-- An operator is chosen with operands that it can take, and a call is left open. -/
theorem resolve_takes {token : Token} {count : Nat} {op : Operator}
    (h : resolve token count = .ok op) : op.Takes count ∧ ∀ index, op ≠ .call (some index) := by
  unfold resolve at h
  split at h
  next => cases h
  next arity harity =>
    split at h
    next haccepts =>
      cases hk : token.kind with
      | sign s =>
        rw [hk] at harity h
        cases harity
        cases h
        refine ⟨ofSign_takes haccepts, fun index => ?_⟩
        cases s <;> simp only [ofSign, ne_eq, reduceCtorEq, not_false_eq_true]
        all_goals split <;> simp
      | name =>
        rw [hk] at h
        cases h
        exact ⟨trivial, by simp⟩
      | _ =>
        rw [hk] at harity
        cases harity
    next => cases h

end Operator

/-- Nothing is decided about an expression itself: no operator is chosen and no name is bound. -/
def Expression.Fresh : Expression → Prop
  | .literal _ => True
  | .var v => v.binding = none
  | .operation _ _ _ operator _ => operator = none

/-- An operation is written with a sign or with a name. -/
def Expression.Headed : Expression → Prop
  | .operation _ token _ _ _ => token.kind.isSign ∨ token.kind = .name
  | _ => True

/-- What is decided about an expression itself can be found among given declarations. -/
def Typing.Context.Bound (c : Typing.Context) : Expression → Prop
  | .literal _ => True
  | .var v => ∀ storage, v.binding = some storage → ∃ d, c.declaration? storage = some d
  | .operation _ _ operands operator _ =>
    ∃ op, operator = some op ∧ op.Takes operands.length ∧
      ∀ index, op = .call (some index) → index < c.signatures.length

/-- The names in scope stand for declarations that are there. -/
structure Scope.Covers (s : Scope) (c : Typing.Context) : Prop where
  vars : ∀ name storage, s.lookup name = some (.var storage) →
    ∃ d, c.declaration? storage = some d
  procs : ∀ name index, s.lookup name = some (.procedure index) → index < c.signatures.length

namespace Scope

variable {s : Scope} {c : Typing.Context}

theorem lookup_cases {name : String} {symbol : Symbol} (h : s.lookup name = some symbol) :
    s.own.lookup name = some symbol ∨ s.globals.lookup name = some symbol ∨
      s.procedures.lookup name = some symbol := by
  rcases Option.or_eq_some_iff.mp h with h | ⟨-, h⟩
  · exact .inl h
  · rcases Option.or_eq_some_iff.mp h with h | ⟨-, h⟩
    · exact .inr (.inl h)
    · exact .inr (.inr h)

theorem bindVariable_reported (s : Scope) (v : Variable) :
    ReportedBy .binding (s.bindVariable v).result := by
  unfold bindVariable
  split <;> simp [Pass.stop, Phase.kinds, Cause.kind]

theorem callee_reported (s : Scope) (token : Token) :
    ReportedBy .binding (s.callee token).result := by
  unfold callee
  split
  next => exact faultsIn_ok _
  next => exact faultsIn_error.mpr (by simp [Phase.kinds, Cause.kind])
  next => exact Traced.faultsIn_bind (faultsIn_ok _) fun _ _ => faultsIn_ok _

theorem bindOperator_reported (s : Scope) {token : Token}
    (h : token.kind.isSign ∨ token.kind = .name) (count : Nat) (known : Option Operator) :
    ReportedBy .binding (s.bindOperator token count known).result := by
  have hresolve : ReportedBy .binding (resolve token count known).result := by
    cases known with
    | some op => exact faultsIn_ok op
    | none =>
      exact Traced.faultsIn_bind (Operator.resolve_reported h count) fun _ _ =>
        Traced.faultsIn_bind (faultsIn_ok _) fun _ _ => faultsIn_ok _
  refine Traced.faultsIn_bind hresolve fun op _ => ?_
  split
  next => exact Traced.faultsIn_bind (s.callee_reported token) fun _ _ => faultsIn_ok _
  next => exact faultsIn_ok _

theorem bindExpression_reported {e : Expression} (h : ∀ e' ∈ e.parts, e'.Headed) :
    ReportedBy .binding (s.bindExpression e).result := by
  induction e with
  | literal l =>
    rw [bindExpression]
    exact faultsIn_ok _
  | var v =>
    rw [bindExpression]
    exact s.bindVariable_reported v
  | operation loc token es known type ih =>
    have hhead := h _ (Expression.self_mem_parts _)
    have hes : ReportedBy .binding (s.bindOperands es).result := by
      rw [bindOperands_eq_all]
      exact Pass.faultsIn_all fun e he => ih e he fun e' he' =>
        h e' (Expression.mem_parts_operation.mpr (.inr ⟨e, he, he'⟩))
    rw [bindExpression]
    dsimp only
    split
    next fault hfault =>
      exact faultsIn_error.mpr (s.bindOperator_reported hhead es.length known fault hfault)
    next => exact hes

theorem bindStatement_reported {t : Statement} (h : ∀ e ∈ t.parts, e.Headed) :
    ReportedBy .binding (s.bindStatement t).result := by
  rw [bindStatement_eq_pass]
  refine Statement.faultsIn_pass fun _ e he => bindExpression_reported fun e' he' => ?_
  exact h e' (Statement.mem_parts.mpr ⟨e, he, he'⟩)

theorem bindOperands_eq_ok {es : List Expression} :
    (s.bindOperands es).result = .ok () ↔ ∀ e ∈ es, (s.bindExpression e).result = .ok () := by
  rw [bindOperands_eq_all, Pass.all_eq_ok]

theorem bindOperands_tree_of_ok {es : List Expression}
    (h : (s.bindOperands es).result = .ok ()) :
    (s.bindOperands es).tree = es.map fun e => (s.bindExpression e).tree := by
  rw [bindOperands_eq_all] at h ⊢
  exact Pass.all_tree_of_ok h

/-- A fresh operation gets an operator that takes its operands, and a callee that is there. -/
theorem bindOperator_fresh (hs : s.Covers c) {token : Token} {count : Nat} {op : Operator}
    (h : (s.bindOperator token count none).result = .ok op) :
    op.Takes count ∧ ∀ index, op = .call (some index) → index < c.signatures.length := by
  obtain ⟨chosen, hchosen, h⟩ := Traced.bind_eq_ok.mp h
  simp only [resolve, Traced.bind_eq_ok, Traced.ofExcept_result, Traced.pure_result,
    Except.ok.injEq] at hchosen
  obtain ⟨_, hresolve, -, -, rfl⟩ := hchosen
  obtain ⟨htakes, hopen⟩ := Operator.resolve_takes hresolve
  split at h
  next =>
    obtain ⟨callee, hcallee, h⟩ := Traced.bind_eq_ok.mp h
    cases h
    refine ⟨trivial, fun index heq => ?_⟩
    cases heq
    unfold callee at hcallee
    split at hcallee
    next index' hlookup =>
      cases hcallee
      exact hs.procs _ _ hlookup
    next => cases hcallee
    next => cases hcallee
  next =>
    cases h
    exact ⟨htakes, fun index heq => absurd heq (hopen index)⟩

/-- Binding makes of each part what it would make of it alone. -/
theorem mem_parts_bindExpression {e e' : Expression} (h : (s.bindExpression e).result = .ok ())
    (he' : e' ∈ (s.bindExpression e).tree.parts) :
    ∃ e₀ ∈ e.parts, (s.bindExpression e₀).result = .ok () ∧ e' = (s.bindExpression e₀).tree := by
  have hself : ∀ {e₀}, (s.bindExpression e₀).result = .ok () → e' = (s.bindExpression e₀).tree →
      ∃ e₁ ∈ e₀.parts, (s.bindExpression e₁).result = .ok () ∧ e' = (s.bindExpression e₁).tree :=
    fun {e₀} h₀ heq => ⟨e₀, e₀.self_mem_parts, h₀, heq⟩
  induction e with
  | literal l =>
    rw [bindExpression, Expression.parts_literal, List.mem_singleton] at he'
    exact hself h (by rw [bindExpression, he'])
  | var v =>
    rw [bindExpression, Pass.mapTree_tree, Expression.parts_var, List.mem_singleton] at he'
    exact hself h (by rw [bindExpression, Pass.mapTree_tree, he'])
  | operation loc token es known type ih =>
    have hok := h
    rw [bindExpression] at hok
    cases hop : (s.bindOperator token es.length known).result with
    | error fault => simp [hop] at hok
    | ok op =>
      have htree : (s.bindExpression (.operation loc token es known type)).tree =
          .operation loc token (s.bindOperands es).tree (some op) type := by
        rw [bindExpression]
        simp [hop]
      have hes : (s.bindOperands es).result = .ok () := by simpa [hop] using hok
      rw [htree, Expression.mem_parts_operation] at he'
      rcases he' with heq | ⟨e₁, he₁, hmem⟩
      · exact hself h (heq.trans htree.symm)
      · rw [bindOperands_tree_of_ok hes] at he₁
        obtain ⟨e, he, rfl⟩ := List.mem_map.mp he₁
        obtain ⟨e₀, he₀, hfound⟩ := ih e he (bindOperands_eq_ok.mp hes e he) hmem
        exact ⟨e₀, Expression.mem_parts_operation.mpr (.inr ⟨e, he, he₀⟩), hfound⟩

theorem bound_of_bindExpression (hs : s.Covers c) {e : Expression} (hfresh : e.Fresh)
    (h : (s.bindExpression e).result = .ok ()) : c.Bound (s.bindExpression e).tree := by
  cases e with
  | literal l =>
    rw [bindExpression]
    exact trivial
  | var v =>
    have hv : v.binding = none := hfresh
    rw [bindExpression, Pass.mapTree_tree, bindVariable]
    split
    next storage hlookup =>
      simp only [Typing.Context.Bound, Option.some.injEq]
      rintro _ rfl
      exact hs.vars _ _ hlookup
    next => simp [Pass.stop, Typing.Context.Bound, hv]
    next => simp [Typing.Context.Bound, hv]
  | operation loc token es known type =>
    have hknown : known = none := hfresh
    subst hknown
    rw [bindExpression] at h ⊢
    cases hop : (s.bindOperator token es.length none).result with
    | error fault => simp [hop] at h
    | ok op =>
      simp only [hop] at h ⊢
      obtain ⟨htakes, hcallee⟩ := bindOperator_fresh hs hop
      refine ⟨op, rfl, ?_, hcallee⟩
      rw [bindOperands_tree_of_ok h, List.length_map]
      exact htakes

/-- A statement is bound if all of its expressions are. -/
theorem bindStatement_eq_ok {t : Statement} :
    (s.bindStatement t).result = .ok () ↔
      ∀ e ∈ t.expressions, (s.bindExpression e).result = .ok () := by
  rw [bindStatement_eq_pass, Statement.pass_eq_ok, ← Statement.map_snd_uses, List.forall_mem_map]

/-- Binding changes a statement in its expressions only. -/
theorem bindStatement_tree_of_ok {t : Statement} (h : (s.bindStatement t).result = .ok ()) :
    (s.bindStatement t).tree = t.map fun e => (s.bindExpression e).tree := by
  rw [bindStatement_eq_pass] at h ⊢
  exact Statement.pass_tree_of_ok (fun _ _ => rfl) h

theorem bindStatement_of_ok {t : Statement} (h : (s.bindStatement t).result = .ok ()) :
    (s.bindStatement t).tree = t.map (fun e => (s.bindExpression e).tree) ∧
      ∀ e ∈ t.expressions, (s.bindExpression e).result = .ok () :=
  ⟨bindStatement_tree_of_ok h, bindStatement_eq_ok.mp h⟩

theorem mem_parts_bindStatement {t : Statement} {e' : Expression}
    (h : (s.bindStatement t).result = .ok ()) (he' : e' ∈ (s.bindStatement t).tree.parts) :
    ∃ e ∈ t.parts, (s.bindExpression e).result = .ok () ∧ e' = (s.bindExpression e).tree := by
  obtain ⟨htree, hok⟩ := bindStatement_of_ok h
  rw [htree, Statement.mem_parts, Statement.expressions_map] at he'
  obtain ⟨e₁, he₁, he'⟩ := he'
  obtain ⟨e₀, he₀, rfl⟩ := List.mem_map.mp he₁
  obtain ⟨e, he, hfound⟩ := mem_parts_bindExpression (hok e₀ he₀) he'
  exact ⟨e, Statement.mem_parts.mpr ⟨e₀, he₀, he⟩, hfound⟩

end Scope

namespace Program

/-- Binding refuses a program only for a mistake in its use of names and operators. -/
theorem bind_reported {p : Program}
    (h : ∀ q ∈ p.procedures, ∀ body, q.body? = some body → ∀ e ∈ body.parts, e.Headed) :
    ReportedBy .binding p.bind.result := by
  rw [bind, Pass.mapTree_result, bindProcedures_eq_all]
  refine Pass.faultsIn_all fun q hq => ?_
  rw [bindProcedure_eq_pass]
  exact Procedure.faultsIn_pass fun body hbody => Scope.bindStatement_reported (h q hq body hbody)

/-- Binding changes a procedure in its body only. -/
theorem redone_bindProcedure (p : Program) (q : Procedure) :
    q.Redone (fun body => ((p.scope q).bindStatement body).tree) (p.bindProcedure q).tree :=
  Procedure.redone_pass _ _ q

theorem bindProcedure_eq_ok {p : Program} {q : Procedure} :
    (p.bindProcedure q).result = .ok () ↔
      ∀ body, q.body? = some body → ((p.scope q).bindStatement body).result = .ok () := by
  rw [bindProcedure_eq_pass, Procedure.pass_eq_ok]

theorem bindProcedures_eq_ok {p : Program} {qs : List Procedure} :
    (p.bindProcedures qs).result = .ok () ↔ ∀ q ∈ qs, (p.bindProcedure q).result = .ok () := by
  rw [bindProcedures_eq_all, Pass.all_eq_ok]

theorem bindProcedures_tree_of_ok {p : Program} {qs : List Procedure}
    (h : (p.bindProcedures qs).result = .ok ()) :
    (p.bindProcedures qs).tree = qs.map fun q => (p.bindProcedure q).tree := by
  rw [bindProcedures_eq_all] at h ⊢
  exact Pass.all_tree_of_ok h

/-- Every expression of every body is bound. -/
def Bound (p : Program) : Prop :=
  ∀ q ∈ p.procedures, ∀ body, q.body? = some body → ∀ e ∈ body.parts, (p.context q).Bound e

/-- Every name in scope of a procedure stands for a declaration of the program. -/
def Covered (p : Program) : Prop :=
  ∀ q ∈ p.procedures, (p.scope q).Covers (p.context q)

/-- A bound procedure was one of the program's, and its body was bound in that scope. -/
theorem bound_of_mem {p : Program} (h : p.bind.result = .ok ()) {q' : Procedure}
    (hq' : q' ∈ p.bind.tree.procedures) :
    ∃ q ∈ p.procedures, q' = (p.bindProcedure q).tree ∧
      ∀ body, q.body? = some body → ((p.scope q).bindStatement body).result = .ok () := by
  have hok : (p.bindProcedures p.procedures).result = .ok () := h
  have htree : p.bind.tree.procedures = p.procedures.map fun q => (p.bindProcedure q).tree :=
    bindProcedures_tree_of_ok hok
  rw [htree] at hq'
  obtain ⟨q, hq, rfl⟩ := List.mem_map.mp hq'
  exact ⟨q, hq, rfl, bindProcedure_eq_ok.mp (bindProcedures_eq_ok.mp hok q hq)⟩

/-- Every part of a bound body comes from one that was bound in the scope of its procedure. -/
theorem mem_parts_bind {p : Program} (h : p.bind.result = .ok ()) {q' : Procedure}
    (hq' : q' ∈ p.bind.tree.procedures) {body' : Statement} (hbody' : q'.body? = some body')
    {e' : Expression} (he' : e' ∈ body'.parts) :
    ∃ q ∈ p.procedures, q' = (p.bindProcedure q).tree ∧ ∃ body, q.body? = some body ∧
      ∃ e ∈ body.parts, ((p.scope q).bindExpression e).result = .ok () ∧
        e' = ((p.scope q).bindExpression e).tree := by
  obtain ⟨q, hq, rfl, hok⟩ := bound_of_mem h hq'
  rw [(p.redone_bindProcedure q).body?] at hbody'
  obtain ⟨body, hbody, rfl⟩ := Option.map_eq_some_iff.mp hbody'
  exact ⟨q, hq, rfl, body, hbody, Scope.mem_parts_bindStatement (hok body hbody) he'⟩

theorem bound_of_bind {p : Program} (hcovered : p.Covered)
    (hfresh : ∀ q ∈ p.procedures, ∀ body, q.body? = some body → ∀ e ∈ body.parts, e.Fresh)
    (h : p.bind.result = .ok ()) : p.bind.tree.Bound := by
  intro q' hq' body' hbody' e' he'
  obtain ⟨q, hq, rfl, body, hbody, e, he, hok, rfl⟩ := mem_parts_bind h hq' hbody' he'
  have hredone := p.redone_bindProcedure q
  have hcontext : p.bind.tree.context (p.bindProcedure q).tree = p.context q := by
    have hsig : ∀ q, (p.bindProcedure q).tree.signature = q.signature := fun q =>
      (p.redone_bindProcedure q).signature
    have hok : (p.bindProcedures p.procedures).result = .ok () := h
    simp [bind, bindProcedures_tree_of_ok hok, context, hredone.returns, hredone.parameters,
      hredone.locals, hsig, Function.comp_def]
  rw [hcontext]
  exact Scope.bound_of_bindExpression (hcovered q hq) (hfresh q hq body hbody e he) hok

end Program

end ProcLang
