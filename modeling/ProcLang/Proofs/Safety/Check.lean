import ProcLang.Proofs.Binding
import ProcLang.Proofs.Typing.Program

/-! Checking refuses a bound program only for mistakes of its own kinds. -/
namespace ProcLang

open Outcome

namespace Operator

variable {op : Operator} {c : Typing.Context}

theorem checkCount_reported {count : Nat} (htakes : op.Takes count)
    (hcallee : ∀ index, op = .call (some index) → index < c.signatures.length) (loc : Nat)
    (token : Token) : ReportedBy .checking (op.checkCount c loc token count) := by
  cases op with
  | subtraction | equality | notEquality | assignment | dereference | reference =>
    have hcount := htakes
    simp only [Takes] at hcount
    simp [checkCount, hcount]
  | call callee =>
    cases callee with
    | none => exact faultsIn_error.mpr (by simp [Phase.kinds, Cause.kind])
    | some index =>
      have hlt := hcallee index rfl
      have hs : c.signatures[index]? = some c.signatures[index] := List.getElem?_eq_getElem hlt
      simp only [checkCount, hs, Signature.checkCount]
      split_ifs <;> simp [Phase.kinds, Cause.kind]
  | _ => exact faultsIn_ok _

theorem checkOperand_reported (op : Operator) (c : Typing.Context) (before : List TypeAt)
    (e : Expression) (type : TypeAt) : ReportedBy .checking (op.checkOperand c before e type) := by
  unfold checkOperand
  dsimp only
  split
  next => split_ifs <;> simp [Phase.kinds, Cause.kind]
  next => split <;> simp [Phase.kinds, Cause.kind]
  next =>
    split
    next => exact faultsIn_ok _
    next => split_ifs <;> simp [Phase.kinds, Cause.kind]
  next =>
    split
    next => exact faultsIn_ok _
    next => split_ifs <;> simp [Phase.kinds, Cause.kind]

/-- Operands that pass leave the whole operation only mistakes to be refused for. -/
theorem judge_reported {loc : Nat} {es : List Expression} {ts : List TypeAt}
    (htakes : op.Takes es.length)
    (hcallee : ∀ index, op = .call (some index) → index < c.signatures.length)
    (ha : op.Admits c [] es ts) : ReportedBy .checking (op.judge c loc es ts) := by
  have hl := ha.length_eq
  cases op with
  | addition =>
    simp only [judge]
    split <;> simp
  | subtraction =>
    obtain ⟨l, r, rfl⟩ := List.length_eq_two.mp htakes
    obtain ⟨left, right, rfl⟩ := List.length_eq_two.mp hl.symm
    simp only [judge, Judgement.subtraction]
    split_ifs <;> simp [Phase.kinds, Cause.kind]
  | equality | notEquality =>
    have htwo := htakes
    simp only [Takes] at htwo
    obtain ⟨left, right, rfl⟩ := List.length_eq_two.mp (hl.symm.trans htwo)
    simp only [judge]
    split_ifs <;> simp [Phase.kinds, Cause.kind]
  | dereference =>
    obtain ⟨e, rfl⟩ := List.length_eq_one_iff.mp htakes
    obtain ⟨t, rfl⟩ := List.length_eq_one_iff.mp hl.symm
    obtain ⟨base, hbase, -⟩ := admits_dereference.mp ha
    cases t with
    | pointer base' loc' => exact faultsIn_ok _
    | _ => cases hbase
  | reference =>
    obtain ⟨t, rfl⟩ := List.length_eq_one_iff.mp (hl.symm.trans htakes)
    exact faultsIn_ok _
  | assignment =>
    obtain ⟨e, v, rfl⟩ := List.length_eq_two.mp htakes
    obtain ⟨target, value, rfl⟩ := List.length_eq_two.mp hl.symm
    simp only [judge, Judgement.assignment]
    split_ifs <;> simp [Phase.kinds, Cause.kind]
  | call callee =>
    cases callee with
    | none => exact faultsIn_ok _
    | some index =>
      have hlt := hcallee index rfl
      have hs : c.signatures[index]? = some c.signatures[index] := List.getElem?_eq_getElem hlt
      simp [judge, hs]
  | _ => exact faultsIn_ok _

end Operator

namespace Typing.Context

variable {c : Typing.Context}

theorem checkOperands_reported {op : Operator} {es : List Expression}
    (hes : ∀ e ∈ es, ReportedBy .checking (c.checkExpression e).result) (before : List TypeAt) :
    ReportedBy .checking (c.checkOperands op before es).result := by
  induction es generalizing before with
  | nil => exact faultsIn_ok _
  | cons e es ih =>
    rw [checkOperands]
    split
    next => exact faultsIn_error.mpr (by simp [Phase.kinds, Cause.kind])
    next =>
      refine Pass.faultsIn_andThen ?_ fun type _ => ih (fun e he => hes e (by simp [he])) _
      exact (hes e (by simp)).bind fun type _ =>
        (op.checkOperand_reported c before e type).bind fun _ _ => faultsIn_ok _

theorem checkExpression_reported {e : Expression} (h : ∀ e' ∈ e.parts, c.Bound e') :
    ReportedBy .checking (c.checkExpression e).result := by
  induction e with
  | literal l =>
    rw [checkExpression]
    exact faultsIn_ok _
  | var v =>
    have hv := h (.var v) (by simp)
    rw [checkExpression, variableType]
    cases hb : v.binding with
    | none => exact faultsIn_error.mpr (by simp [Phase.kinds, Cause.kind])
    | some storage =>
      obtain ⟨d, hd⟩ := hv storage hb
      simp [hd]
  | operation loc token es known type ih =>
    obtain ⟨op, rfl, htakes, hcallee⟩ := h _ (Expression.self_mem_parts _)
    have hes : ∀ e ∈ es, ReportedBy .checking (c.checkExpression e).result := fun e he =>
      ih e he fun e' he' => h e' (Expression.mem_parts_operation.mpr (.inr ⟨e, he, he'⟩))
    rw [checkExpression]
    split
    next fault hfault =>
      exact faultsIn_error.mpr (Operator.checkCount_reported htakes hcallee loc token fault hfault)
    next =>
      have hjudged : ReportedBy .checking
          ((c.checkOperands op [] es).result.bind (op.judge c loc es)) := by
        refine (checkOperands_reported hes []).bind fun types htypes => ?_
        obtain ⟨ts, rfl, -, ha⟩ := checkOperands_eq_ok.mp htypes
        exact Operator.judge_reported htakes hcallee ha
      dsimp only
      split
      next fault hfault => exact faultsIn_error.mpr (hjudged fault hfault)
      next => exact faultsIn_ok _

theorem checkAs_reported {e : Expression} (h : ∀ e' ∈ e.parts, c.Bound e') (role : Role) :
    ReportedBy .checking (c.checkAs role e).result := by
  cases role with
  | value => exact (checkExpression_reported h).bind fun _ _ => faultsIn_ok _
  | condition | returned loc =>
    refine (checkExpression_reported h).bind fun type _ => ?_
    split <;> simp [Phase.kinds, Cause.kind]

theorem checkStatement_reported {s : Statement} (h : ∀ e ∈ s.parts, c.Bound e) :
    ReportedBy .checking (c.checkStatement s).result := by
  rw [checkStatement_eq_pass]
  refine Statement.faultsIn_pass fun role e he => checkAs_reported (fun e' he' => ?_) role
  exact h e' (Statement.mem_parts.mpr ⟨e, he, he'⟩)

end Typing.Context

theorem Declaration.check_reported (d : Declaration) : ReportedBy .checking d.check := by
  unfold check
  split <;> simp [Phase.kinds, Cause.kind]

theorem Parameter.checkAll_reported (external : Bool) (ps : List Parameter) :
    ReportedBy .checking (checkAll external ps) := by
  induction ps with
  | nil => exact faultsIn_ok _
  | cons q ps ih =>
    cases q with
    | var d => exact d.check_reported.bind fun _ _ => ih
    | etcetera loc =>
      rw [checkAll]
      split_ifs <;> simp [Phase.kinds, Cause.kind]

theorem Procedure.checkDeclaration_reported (p : Procedure) :
    ReportedBy .checking p.checkDeclaration := by
  refine (Parameter.checkAll_reported _ _).bind fun _ _ => ?_
  split
  next => exact faultsIn_error.mpr (by simp [Phase.kinds, Cause.kind])
  next => exact forM_faultsIn fun d _ => d.check_reported

namespace Program

theorem checkProcedures_reported {p : Program} {qs : List Procedure}
    (h : ∀ q ∈ qs, ∀ body, q.body? = some body → ∀ e ∈ body.parts, (p.context q).Bound e) :
    ReportedBy .checking (p.checkProcedures qs).result := by
  rw [checkProcedures_eq_all]
  refine Pass.faultsIn_all fun q hq => ?_
  rw [checkProcedure_eq_pass]
  exact Procedure.faultsIn_pass fun body hbody =>
    Typing.Context.checkStatement_reported (h q hq body hbody)

theorem check_reported {p : Program} (h : p.Bound) : ReportedBy .checking p.check.result := by
  have hdecls : ReportedBy .checking p.checkDeclarations :=
    (forM_faultsIn fun d _ => d.check_reported).bind fun _ _ =>
      forM_faultsIn fun q _ => q.checkDeclaration_reported
  have hbodies : ReportedBy .checking ((p.checkProcedures p.procedures).result.map fun _ =>
      (p.checkProcedures p.procedures).events.filterMap Event.warning?) := by
    have hprocs := checkProcedures_reported h
    intro fault hfault
    cases hres : (p.checkProcedures p.procedures).result with
    | error fault' =>
      rw [hres] at hfault
      cases hfault
      exact hprocs _ hres
    | ok _ =>
      rw [hres] at hfault
      cases hfault
  unfold check
  split
  next fault hfault => exact faultsIn_error.mpr (hdecls fault hfault)
  next => exact hbodies

end Program

end ProcLang
