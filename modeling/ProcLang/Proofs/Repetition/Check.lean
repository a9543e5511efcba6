import ProcLang.Proofs.Repetition.Binding
import ProcLang.Proofs.Typing.Program

/-! Checking a program that has types on record. They have no part in what a check finds, so a
second check finds the same, and bound names stay bound. -/
namespace ProcLang

/-- Two passes that tell the same, whatever trees they leave. -/
structure Pass.Agrees (p : Pass τ α) (q : Pass σ α) : Prop where
  events : p.events = q.events
  result : p.result = q.result

namespace Pass.Agrees

variable {p : Pass τ α} {q : Pass σ α}

theorem mapTree (h : p.Agrees q) (f : τ → τ') (g : σ → σ') :
    (p.mapTree f).Agrees (q.mapTree g) :=
  ⟨h.events, h.result⟩

theorem require (h : p.Agrees q) (check : α → Except Fault β) :
    (p.require check).Agrees (q.require check) :=
  ⟨h.events, congrArg (·.bind check) h.result⟩

theorem logged (h : p.Agrees q) (event : Event) : (p.logged event).Agrees (q.logged event) := by
  unfold Pass.logged
  rw [h.result]
  split
  · exact h
  · exact ⟨congrArg (· ++ [event]) h.events, rfl⟩

theorem andThen (h : p.Agrees q) {t : τ'} {u : σ'} {f : α → Pass τ' β} {g : α → Pass σ' β}
    (hnext : ∀ a, (f a).Agrees (g a)) : (p.andThen t f).Agrees (q.andThen u g) := by
  unfold Pass.andThen
  rw [h.result]
  split
  · exact ⟨h.events, rfl⟩
  · exact ⟨congrArg₂ (· ++ ·) h.events (hnext _).events, (hnext _).result⟩

end Pass.Agrees

namespace Operator

theorem checkOperand_clearTypes (op : Operator) (c : Typing.Context) (before : List TypeAt)
    (e : Expression) : op.checkOperand c before e.clearTypes = op.checkOperand c before e := by
  unfold checkOperand
  rw [e.loc_clearTypes, e.display_clearTypes]

theorem judge_clearTypes (op : Operator) (c : Typing.Context) (loc : Nat) (es : List Expression) :
    op.judge c loc (es.map Expression.clearTypes) = op.judge c loc es := by
  funext types
  cases op with
  | subtraction | assignment =>
    rcases es with _ | ⟨l, _ | ⟨r, _ | _⟩⟩
    · rfl
    · rfl
    · rcases types with _ | ⟨_, _ | ⟨_, _ | _⟩⟩ <;> simp [judge, Expression.loc_clearTypes]
    · rfl
  | call index => cases index <;> rfl
  | _ => rfl

end Operator

namespace Typing.Context

variable {c : Typing.Context}

/-- One operand in its place: a storage location if that is wanted, and of a fitting type. -/
def checkPlaced (c : Typing.Context) (op : Operator) (before : List TypeAt) (e : Expression) :
    Pass Expression TypeAt :=
  if op.wantsPlace before.length && !e.isPlace then .stop e (.located e.loc (.notPlace e.display))
  else (c.checkExpression e).require fun type => do
    op.checkOperand c before e type
    return type

theorem checkOperands_cons (op : Operator) (before : List TypeAt) (e : Expression)
    (es : List Expression) :
    c.checkOperands op before (e :: es) =
      ((c.checkPlaced op before e).andThen es fun type =>
        c.checkOperands op (before ++ [type]) es).mapTree fun (e, es) => e :: es := by
  rw [checkOperands, checkPlaced]
  split <;> rfl

theorem agrees_checkPlaced {e : Expression}
    (h : (c.checkExpression e.clearTypes).Agrees (c.checkExpression e)) (op : Operator)
    (before : List TypeAt) :
    (c.checkPlaced op before e.clearTypes).Agrees (c.checkPlaced op before e) := by
  unfold checkPlaced
  rw [e.loc_clearTypes, e.display_clearTypes, e.isPlace_clearTypes, op.checkOperand_clearTypes]
  split
  · exact ⟨rfl, rfl⟩
  · exact h.require _

theorem agrees_checkOperands {es : List Expression}
    (h : ∀ e ∈ es, (c.checkExpression e.clearTypes).Agrees (c.checkExpression e)) (op : Operator)
    (before : List TypeAt) :
    (c.checkOperands op before (es.map Expression.clearTypes)).Agrees
      (c.checkOperands op before es) := by
  induction es generalizing before with
  | nil => exact ⟨rfl, rfl⟩
  | cons e es ih =>
    rw [List.map_cons, checkOperands_cons, checkOperands_cons]
    have hes := ih fun e he => h e (List.mem_cons_of_mem _ he)
    exact ((agrees_checkPlaced (h e (by simp)) op before).andThen fun _ => hes _).mapTree _ _

theorem agrees_checkExpression (e : Expression) :
    (c.checkExpression e.clearTypes).Agrees (c.checkExpression e) := by
  induction e with
  | literal l => exact ⟨rfl, rfl⟩
  | var v =>
    have htype : c.variableType { v with type := none } = c.variableType v := rfl
    simp only [Expression.clearTypes, checkExpression, htype]
    split <;> exact ⟨rfl, rfl⟩
  | operation loc token es known type ih =>
    cases known with
    | none => exact ⟨rfl, rfl⟩
    | some op =>
      have hes := agrees_checkOperands ih op []
      simp only [Expression.clearTypes, Expression.clearAllTypes_eq_map, checkExpression,
        List.length_map, Operator.judge_clearTypes, hes.events, hes.result]
      split
      · exact ⟨rfl, rfl⟩
      · split <;> exact ⟨rfl, rfl⟩

theorem agrees_checkCondition (e : Expression) :
    (c.checkCondition e.clearTypes).Agrees (c.checkCondition e) := by
  unfold checkCondition
  rw [e.loc_clearTypes]
  exact (agrees_checkExpression e).require _

theorem agrees_checkStatement (s : Statement) :
    (c.checkStatement (s.map Expression.clearTypes)).Agrees (c.checkStatement s) := by
  induction s with
  | block loc body ih =>
    have hbody : (c.checkStatements (body.map (Statement.map Expression.clearTypes))).Agrees
        (c.checkStatements body) := by
      induction body with
      | nil => exact ⟨rfl, rfl⟩
      | cons s ss ih' =>
        have hss := ih' fun s hs => ih s (List.mem_cons_of_mem _ hs)
        rw [List.map_cons, checkStatements, checkStatements]
        exact ((ih s (by simp)).andThen fun _ => hss).mapTree _ _
    rw [Statement.map_block, checkStatement, checkStatement]
    exact hbody.mapTree _ _
  | ifThen loc condition yes ih =>
    rw [Statement.map_ifThen, checkStatement, checkStatement]
    exact ((agrees_checkCondition condition).andThen fun _ => ih).mapTree _ _
  | ifThenElse loc condition yes no ihy ihn =>
    rw [Statement.map_ifThenElse, checkStatement, checkStatement]
    exact ((agrees_checkCondition condition).andThen fun _ =>
      ihy.andThen fun _ => ihn).mapTree _ _
  | loop loc condition body ih =>
    rw [Statement.map_loop, checkStatement, checkStatement]
    exact ((agrees_checkCondition condition).andThen fun _ => ih).mapTree _ _
  | ret loc value =>
    cases value with
    | none =>
      rw [Statement.map_ret]
      exact ⟨rfl, rfl⟩
    | some e =>
      rw [Statement.map_ret, Option.map_some, checkStatement, checkStatement]
      exact ((agrees_checkExpression e).require _).mapTree _ _
  | expression e =>
    rw [Statement.map_expression, checkStatement, checkStatement]
    exact ((agrees_checkExpression e).require _).mapTree _ _

theorem repeats_checkPlaced {e : Expression} (h : Pass.Repeats c.checkExpression e)
    (op : Operator) (before : List TypeAt) : Pass.Repeats (c.checkPlaced op before) e := by
  -- the types on record are all that a check changes, and none of what is asked depends on them
  have hclear := clearTypes_tree (c := c) e
  have hplace : (c.checkExpression e).tree.isPlace = e.isPlace := by
    rw [← Expression.isPlace_clearTypes, hclear, e.isPlace_clearTypes]
  have hoperand : op.checkOperand c before (c.checkExpression e).tree =
      op.checkOperand c before e := by
    rw [← op.checkOperand_clearTypes, hclear, op.checkOperand_clearTypes]
  by_cases hstop : (op.wantsPlace before.length && !e.isPlace) = true
  · constructor <;> simp [checkPlaced, hstop, Pass.stop]
  · have hrequire := h.require (fun e type => do
      op.checkOperand c before e type
      return type) (by simp only [hoperand])
    constructor
    · simpa [checkPlaced, hstop, hplace] using hrequire.tree
    · simpa [checkPlaced, hstop, hplace] using hrequire.result

theorem repeats_checkOperands {es : List Expression}
    (h : ∀ e ∈ es, Pass.Repeats c.checkExpression e) (op : Operator) (before : List TypeAt) :
    Pass.Repeats (c.checkOperands op before) es := by
  induction es generalizing before with
  | nil => constructor <;> rfl
  | cons e es ih =>
    have hes := ih fun e he => h e (List.mem_cons_of_mem _ he)
    exact ((repeats_checkPlaced (h e (by simp)) op before).andThen fun _ _ => hes _).mapTree
      (F := fun v => v.1 :: v.2) (h := c.checkOperands op before)
      fun v => checkOperands_cons op before v.1 v.2

theorem repeats_checkExpression (e : Expression) : Pass.Repeats c.checkExpression e := by
  induction e with
  | literal l => constructor <;> simp [checkExpression]
  | var v =>
    cases h : c.variableType v with
    | error fault => constructor <;> simp [checkExpression, h, Pass.stop]
    | ok type =>
      have h' : c.variableType { v with type := some type } = .ok type := h
      constructor <;> simp [checkExpression, h, h']
  | operation loc token es known type ih =>
    cases known with
    | none => constructor <;> simp [checkExpression, Pass.stop]
    | some op =>
      have hes := repeats_checkOperands ih op []
      have hclear := clearTypes_operands (fun e (_ : e ∈ es) => c.clearTypes_tree e) op []
      have hlength : (c.checkOperands op [] es).tree.length = es.length := by
        simpa using congrArg List.length hclear
      have hjudge : op.judge c loc (c.checkOperands op [] es).tree = op.judge c loc es := by
        rw [← op.judge_clearTypes, hclear, op.judge_clearTypes]
      cases hcount : op.checkCount c loc token es.length with
      | error fault => constructor <;> simp [checkExpression, hcount, Pass.stop]
      | ok _ =>
        cases h : (c.checkOperands op [] es).result.bind (op.judge c loc es) with
        | error fault =>
          constructor <;> simp [checkExpression, hcount, h, hlength, hjudge, hes.tree, hes.result]
        | ok judgement =>
          constructor <;> simp [checkExpression, hcount, h, hlength, hjudge, hes.tree, hes.result]

theorem repeats_checkAs (role : Role) (e : Expression) : Pass.Repeats (c.checkAs role) e := by
  have he := repeats_checkExpression (c := c) e
  cases role with
  | value => exact he.require (fun _ _ => .ok ()) rfl
  | condition =>
    have hloc : (c.checkExpression e).tree.loc = e.loc := by
      rw [← Expression.loc_clearTypes, clearTypes_tree, e.loc_clearTypes]
    refine he.require (fun e type =>
      if type.ty = .bool then .ok () else .error (.located e.loc (.condition type.ty))) ?_
    rw [hloc]
  | returned loc => exact he.require (fun _ => _) rfl

theorem repeats_checkStatement (s : Statement) : Pass.Repeats c.checkStatement s := by
  rw [checkStatement_eq_pass]
  exact Statement.repeats_pass repeats_checkAs s

end Typing.Context

theorem Procedure.checkDeclaration_map (f : Expression → Expression) (q : Procedure) :
    (q.map f).checkDeclaration = q.checkDeclaration := by
  unfold checkDeclaration isExternal locals
  cases h : q.implementation with
  | external => rw [map_of_external f h, h]
  | internal locals body => rw [map_of_internal f h]

namespace Program

variable {p p' : Program}

theorem procedures_clearTypes (p : Program) :
    p.clearTypes.procedures = p.procedures.map (Procedure.map Expression.clearTypes) :=
  congrArg procedures (mapExpressions_eq _ p)

theorem checkDeclarations_clearTypes (p : Program) :
    p.clearTypes.checkDeclarations = p.checkDeclarations := by
  have hqs : ∀ qs : List Procedure,
      (qs.map (Procedure.map Expression.clearTypes)).forM Procedure.checkDeclaration =
        qs.forM Procedure.checkDeclaration := by
    intro qs
    induction qs with
    | nil => rfl
    | cons q qs ih =>
      simp only [List.forM_eq_forM] at ih
      simp [Procedure.checkDeclaration_map, ih]
  rw [checkDeclarations, checkDeclarations, procedures_clearTypes, hqs]
  rfl

theorem context_clearTypes (p : Program) (q : Procedure) :
    p.clearTypes.context (q.map Expression.clearTypes) = p.context q := by
  have hredone := q.redone_map Expression.clearTypes
  simp [clearTypes, mapExpressions_eq, context, hredone.returns, hredone.parameters,
    hredone.locals, Function.comp_def]

theorem agrees_checkProcedure (p : Program) (q : Procedure) :
    (p.clearTypes.checkProcedure (q.map Expression.clearTypes)).Agrees (p.checkProcedure q) := by
  have hbody := Typing.Context.agrees_checkStatement (c := p.context q)
  unfold checkProcedure
  rw [context_clearTypes, Procedure.name_map]
  cases h : q.implementation with
  | external =>
    rw [Procedure.map_of_external _ h, h]
    exact ⟨rfl, rfl⟩
  | internal locals body =>
    rw [Procedure.map_of_internal _ h]
    exact ((hbody body).logged _).mapTree _ _

theorem agrees_check (p : Program) : p.clearTypes.check.Agrees p.check := by
  have hqs : ∀ qs : List Procedure,
      (p.clearTypes.checkProcedures (qs.map (Procedure.map Expression.clearTypes))).Agrees
        (p.checkProcedures qs) := by
    intro qs
    induction qs with
    | nil => exact ⟨rfl, rfl⟩
    | cons q qs ih =>
      rw [List.map_cons, checkProcedures, checkProcedures]
      exact ((p.agrees_checkProcedure q).andThen fun _ => ih).mapTree _ _
  unfold check
  rw [checkDeclarations_clearTypes, procedures_clearTypes]
  split
  · exact ⟨rfl, rfl⟩
  · exact ⟨(hqs _).events, by simp only [(hqs _).events, (hqs _).result]⟩

/-- What a check finds does not depend on the types on record. -/
theorem check_result_eq (h : p'.clearTypes = p.clearTypes) : p'.check.result = p.check.result := by
  rw [← p'.agrees_check.result, h, p.agrees_check.result]

theorem repeats_checkProcedure (p : Program) (q : Procedure) :
    Pass.Repeats p.checkProcedure q := by
  change Pass.Repeats (fun q => q.pass (p.context q).checkStatement (.checkedProcedure q.name)) q
  refine Procedure.repeats_pass (fun redo q' hq' => ?_) Typing.Context.repeats_checkStatement
  rw [context, context, hq'.parameters, hq'.locals, hq'.returns]

theorem repeats_checkProcedures (p : Program) (qs : List Procedure) :
    Pass.Repeats p.checkProcedures qs := by
  rw [checkProcedures_eq_all]
  exact Pass.Repeats.all fun q _ => p.repeats_checkProcedure q

/-- Bodies are checked against the declarations of a program alone. -/
theorem checkProcedures_congr (hglobals : p'.globals = p.globals)
    (hsignatures : p'.procedures.map Procedure.signature = p.procedures.map Procedure.signature)
    (qs : List Procedure) : p'.checkProcedures qs = p.checkProcedures qs := by
  have hcontext : ∀ q, p'.context q = p.context q := by
    intro q
    rw [context, context, hglobals, hsignatures]
  rw [checkProcedures_eq_all, checkProcedures_eq_all]
  refine Pass.all_congr fun q _ => ?_
  rw [checkProcedure, checkProcedure, hcontext]

theorem check_tree_again (p : Program) : p.check.tree.check.tree = p.check.tree := by
  cases hdeclarations : p.checkDeclarations with
  | error fault => simp [check, hdeclarations, Pass.stop]
  | ok _ =>
    have hagain : p.check.tree.checkDeclarations = .ok () := by
      rw [← checkDeclarations_clearTypes, clearTypes_check, checkDeclarations_clearTypes,
        hdeclarations]
    have hsignatures : p.check.tree.procedures.map Procedure.signature =
        p.procedures.map Procedure.signature := by
      have hclear := congrArg (fun p => p.procedures.map Procedure.signature) p.clearTypes_check
      simpa [procedures_clearTypes, Function.comp_def] using hclear
    have htree : p.check.tree =
        { p with procedures := (p.checkProcedures p.procedures).tree } := by
      simp [check, hdeclarations]
    have hglobals : p.check.tree.globals = p.globals := by rw [htree]
    rw [check]
    simp only [hagain, checkProcedures_congr hglobals hsignatures]
    rw [htree]
    simp [(p.repeats_checkProcedures p.procedures).tree]

/-- Binding and checking may be run again at any time. A second run of either ends like the first
and leaves the same program, types on record have no part in what a check finds, and binding has
nothing left to do after a check. -/
theorem passes_repeat (p : Program) :
    p.bind.tree.bind.result = p.bind.result ∧ p.bind.tree.bind.tree = p.bind.tree ∧
      p.check.tree.check.result = p.check.result ∧ p.check.tree.check.tree = p.check.tree ∧
      (∀ p' : Program, p'.clearTypes = p.clearTypes → p'.check.result = p.check.result) ∧
      (p.bind.result = .ok () → p.bind.tree.check.tree.bind.result = .ok () ∧
        p.bind.tree.check.tree.bind.tree = p.bind.tree.check.tree) := by
  have hbind := p.repeats_bind
  refine ⟨hbind.result, hbind.tree, check_result_eq p.clearTypes_check, p.check_tree_again,
    fun p' => check_result_eq, fun hok => ?_⟩
  have hsettled : p.bind.tree.Settled := ⟨hbind.result.trans hok, hbind.tree⟩
  exact hsettled.of_clearTypes p.bind.tree.clearTypes_check

end Program

end ProcLang
