import Mathlib.Data.List.Perm.Basic
import ProcLang.Proofs.Typing.Program

/-! What checking warns of: assignments that narrow a `void*`, each of them once, in the order in
which checking is done with them. -/
namespace ProcLang

namespace Expression

mutual

/-- An expression and all that it is made of, operands before what is made of them. -/
def postorder : Expression → List Expression
  | .literal l => [.literal l]
  | .var v => [.var v]
  | .operation loc token operands operator type =>
    operandsPostorder operands ++ [.operation loc token operands operator type]

def operandsPostorder : List Expression → List Expression
  | [] => []
  | e :: es => e.postorder ++ operandsPostorder es

end

/-- The warning for an assignment whose types on record are a pointer to something known and a
`void*`. -/
def narrowing? : Expression → Option Warning
  | .operation loc _ [target, value] (some .assignment) _ =>
    match target.type?.map TypeAt.ty, value.type?.map TypeAt.ty with
    | some (.pointer base), some (.pointer .void) =>
      if base = .void then none else some ⟨loc, .pointer base⟩
    | _, _ => none
  | _ => none

theorem narrowing?_of_ne {op : Operator} (h : op ≠ .assignment) {loc : Nat} {token : Token}
    {es : List Expression} {type : Option TypeAt} :
    (operation loc token es (some op) type).narrowing? = none := by
  rw [narrowing?.eq_def]
  split
  next heq =>
    cases heq
    exact absurd rfl h
  next => rfl

theorem operandsPostorder_eq_flatMap (es : List Expression) :
    operandsPostorder es = es.flatMap postorder := by
  induction es with
  | nil => rfl
  | cons e es ih => rw [operandsPostorder, ih, List.flatMap_cons]

/-- Another order of the same parts. -/
theorem postorder_perm (e : Expression) : e.postorder.Perm e.parts := by
  induction e with
  | literal l | var v => simp [postorder]
  | operation loc token es op type ih =>
    rw [postorder, parts, operandsPostorder_eq_flatMap, operandParts_eq_flatMap]
    refine (List.perm_append_singleton _ _).trans (.cons _ ?_)
    exact List.Perm.flatMap_left es ih

/-- What there is to warn of in an expression. -/
def findings (e : Expression) : List Warning :=
  e.postorder.filterMap narrowing?

theorem findings_operation (loc : Nat) (token : Token) (es : List Expression)
    (op : Option Operator) (type : Option TypeAt) :
    (operation loc token es op type).findings =
      es.flatMap findings ++ (operation loc token es op type).narrowing?.toList := by
  rw [findings, postorder, operandsPostorder_eq_flatMap, List.filterMap_append,
    List.filterMap_flatMap]
  rfl

end Expression

/-- All expressions in a statement, in the order in which checking is done with them. -/
def Statement.postorder (s : Statement) : List Expression :=
  s.expressions.flatMap Expression.postorder

def Statement.findings (s : Statement) : List Warning :=
  s.expressions.flatMap Expression.findings

/-- All expressions in the bodies of a program, in the order in which checking is done with
them. -/
def Program.postorder (p : Program) : List Expression :=
  p.procedures.flatMap fun q => (q.body?.map Statement.postorder).getD []

theorem Program.postorder_perm (p : Program) : p.postorder.Perm p.parts := by
  refine List.Perm.flatMap_left _ fun q _ => ?_
  cases q.body? with
  | none => exact .nil
  | some body => exact List.Perm.flatMap_left _ fun e _ => e.postorder_perm

def Procedure.findings (q : Procedure) : List Warning :=
  (q.body?.map Statement.findings).getD []

theorem Program.filterMap_postorder (p : Program) :
    p.postorder.filterMap Expression.narrowing? = p.procedures.flatMap Procedure.findings := by
  rw [postorder, List.filterMap_flatMap]
  refine List.flatMap_congr fun q _ => ?_
  unfold Procedure.findings
  cases q.body? with
  | none => rfl
  | some body => exact List.filterMap_flatMap

/-- A pass that ends well has warned of what is found in the tree that it leaves. -/
def Pass.Warns (findings : τ → List Warning) (p : Pass τ α) : Prop :=
  ∀ a, p.result = .ok a → p.events.filterMap Event.warning? = findings p.tree

namespace Pass.Warns

variable {p : Pass τ α} {findings : τ → List Warning}

theorem mapTree (h : p.Warns findings) {F : τ → σ} {findings' : σ → List Warning}
    (hF : ∀ t, findings' (F t) = findings t) : (p.mapTree F).Warns findings' := by
  intro a ha
  rw [mapTree_tree, hF]
  exact h a ha

theorem require (h : p.Warns findings) (check : α → Except Fault β) :
    (p.require check).Warns findings := by
  intro b hb
  obtain ⟨a, ha, -⟩ := require_eq_ok.mp hb
  exact h a ha

theorem logged (h : p.Warns findings) {event : Event} (hevent : event.warning? = none) :
    (p.logged event).Warns findings := by
  intro a ha
  rw [logged_result] at ha
  rw [logged_tree, ← h a ha, Pass.logged, ha, List.filterMap_append]
  simp [hevent]

theorem andThen (h : p.Warns findings) {rest : σ} {next : α → Pass σ β}
    {findings' : σ → List Warning} (hnext : ∀ a, (next a).Warns findings') :
    (p.andThen rest next).Warns fun t => findings t.1 ++ findings' t.2 := by
  intro b hb
  obtain ⟨a, ha, hb⟩ := andThen_eq_ok.mp hb
  rw [Pass.andThen, ha, List.filterMap_append, h a ha, hnext a b hb]

theorem stop (t : τ) (fault : Fault) : (Pass.stop t fault : Pass τ α).Warns findings :=
  nofun

end Pass.Warns

namespace Typing.Context

variable {c : Typing.Context}

/-- Only an assignment can be warned of. -/
theorem judge_silent {op : Operator} {loc : Nat} {es : List Expression} {ts : List TypeAt}
    {j : Judgement} (h : op.judge c loc es ts = .ok j) (hop : op ≠ .assignment) :
    j.warning = none := by
  cases op with
  | assignment => exact absurd rfl hop
  | addition | equality | notEquality | dereference | reference =>
    simp only [Operator.judge] at h
    repeat' split at h
    all_goals cases h
    all_goals rfl
  | subtraction =>
    simp only [Operator.judge, Judgement.subtraction] at h
    repeat' split at h
    all_goals cases h
    all_goals rfl
  | call callee =>
    cases callee with
    | none =>
      cases h
      rfl
    | some index =>
      simp only [Operator.judge] at h
      split at h
      all_goals cases h
      all_goals rfl
  | _ =>
    cases h
    rfl

/-- An assignment is warned of if its types on record call for it. -/
theorem assignment_warning {loc valueLoc : Nat} {token : Token} {target value : Expression}
    {type : Option TypeAt} {t u : TypeAt} {j : Judgement}
    (h : Judgement.assignment loc valueLoc t u = .ok j) (ht : target.type? = some t)
    (hu : value.type? = some u) :
    j.warning = (Expression.operation loc token [target, value] (some .assignment)
      type).narrowing? := by
  unfold Judgement.assignment at h
  simp only [Expression.narrowing?, ht, hu, Option.map_some]
  split at h
  next hcast =>
    obtain ⟨hpointer, hvoid⟩ := Bool.and_eq_true_iff.mp hcast
    obtain ⟨base, hbase⟩ := Ty.isPointer_iff.mp hpointer
    cases h
    rw [of_decide_eq_true hvoid, hbase]
    by_cases h : base = .void <;> simp [h]
  next hcast =>
    split at h
    next heq =>
      cases h
      split
      next base hbase hvoid =>
        refine absurd ?_ hcast
        rw [Option.some.inj hbase, Option.some.inj hvoid]
        rfl
      next => rfl
    next => cases h

/-- The warning of an operation is the one that its types on record call for. -/
theorem judge_warning {op : Operator} {loc : Nat} {token : Token} {es : List Expression}
    {ts : List TypeAt} {j : Judgement} {type : Option TypeAt}
    (h : op.judge c loc es ts = .ok j)
    (hts : List.Forall₂ (fun e t => (c.checkExpression e).result = .ok t) es ts) :
    j.warning = (Expression.operation loc token (es.map fun e => (c.checkExpression e).tree)
      (some op) type).narrowing? := by
  by_cases hop : op = .assignment
  · subst hop
    cases hts with
    | nil => cases h
    | cons htarget hts =>
      cases hts with
      | nil => cases h
      | cons hvalue hts =>
        cases hts with
        | nil =>
          exact assignment_warning h (recorded_of_check htarget).1 (recorded_of_check hvalue).1
        | cons _ _ => cases h
  · rw [judge_silent h hop, Expression.narrowing?_of_ne hop]

theorem checkOperands_warns {op : Operator} {before : List TypeAt} {es : List Expression}
    (h : ∀ e ∈ es, (c.checkExpression e).Warns Expression.findings) :
    (c.checkOperands op before es).Warns (List.flatMap Expression.findings) := by
  induction es generalizing before with
  | nil =>
    rintro _ ⟨⟩
    rfl
  | cons e es ih =>
    rw [checkOperands]
    split
    · exact .stop _ _
    · refine ((((h e (by simp)).require _).andThen fun type => ?_)).mapTree fun _ =>
        List.flatMap_cons
      exact ih fun e he => h e (by simp [he])

theorem checkExpression_warns (e : Expression) :
    (c.checkExpression e).Warns Expression.findings := by
  induction e with
  | literal l =>
    rintro _ ⟨⟩
    rfl
  | var v =>
    rw [checkExpression]
    split
    · exact .stop _ _
    · rintro _ ⟨⟩
      rfl
  | operation loc token es op type ih =>
    cases op with
    | none =>
      rw [checkExpression]
      exact .stop _ _
    | some op =>
      intro t ht
      rw [checkOperation_tree_of_ok ht, Expression.findings_operation]
      obtain ⟨ts, hts, hcount, hadmits, j, hj, rfl⟩ := checkOperation_eq_ok.mp ht
      have hres : (c.checkOperands op [] es).result = .ok ts :=
        checkOperands_eq_ok.mpr ⟨ts, rfl, hts, hadmits⟩
      have hoperands := checkOperands_warns ih ts hres
      rw [checkOperands_tree_of_ok hres] at hoperands
      rw [← hoperands, ← judge_warning hj hts, checkExpression, hcount]
      simp only [hres, Except.bind, hj]
      cases j.warning <;> simp [Event.warning?]

theorem checkAs_warns (role : Role) (e : Expression) :
    (c.checkAs role e).Warns Expression.findings := by
  cases role with
  | value | condition | returned loc => exact (checkExpression_warns e).require _

theorem checkStatement_warns (s : Statement) :
    (c.checkStatement s).Warns Statement.findings := by
  intro _ h
  rw [checkStatement_eq_pass] at h ⊢
  rw [Statement.pass_events_of_ok h, Statement.pass_tree_of_ok c.checkAs_tree h,
    Statement.findings, Statement.expressions_map, ← Statement.map_snd_uses, List.map_map,
    List.filterMap_flatMap, List.flatMap_map]
  refine List.flatMap_congr fun u hu => ?_
  rw [checkAs_warns u.1 u.2 () (Statement.pass_eq_ok.mp h u hu), checkAs_tree]
  rfl

end Typing.Context

namespace Program

variable {p : Program}

theorem checkProcedure_warns (q : Procedure) : (p.checkProcedure q).Warns Procedure.findings := by
  unfold checkProcedure
  split
  next himpl =>
    rintro _ ⟨⟩
    rw [Procedure.findings, Procedure.body?, himpl]
    rfl
  next => exact ((Typing.Context.checkStatement_warns _).logged rfl).mapTree fun _ => rfl

theorem checkProcedures_warns (qs : List Procedure) :
    (p.checkProcedures qs).Warns (List.flatMap Procedure.findings) := by
  intro _ h
  rw [checkProcedures_eq_all] at h ⊢
  rw [Pass.all_events_of_ok h, Pass.all_tree_of_ok h, List.filterMap_flatMap, List.flatMap_map]
  exact List.flatMap_congr fun q hq => checkProcedure_warns q () (Pass.all_eq_ok.mp h q hq)

theorem check_warnings {ws : List Warning} (h : p.check.result = .ok ws) :
    ws = p.check.tree.postorder.filterMap Expression.narrowing? := by
  rw [filterMap_postorder]
  unfold check at h ⊢
  split at h
  · cases h
  next =>
    dsimp only at h ⊢
    cases hresult : (p.checkProcedures p.procedures).result with
    | error fault =>
      rw [hresult] at h
      cases h
    | ok _ =>
      rw [hresult] at h
      cases h
      exact checkProcedures_warns p.procedures _ hresult

end Program

end ProcLang
