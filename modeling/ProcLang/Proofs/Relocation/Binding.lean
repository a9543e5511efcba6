import ProcLang.Proofs.Relocation.Basic

/-! Binding commutes with relocation: names are looked up by their text alone. -/
namespace ProcLang

variable {f : Nat → Nat}

theorem Operator.resolve_relocate (t : Token) (count : Nat) :
    resolve (t.relocate f) count = Outcome.relocate f id (resolve t count) := by
  obtain ⟨kind, text, loc⟩ := t
  simp only [resolve, Token.relocate]
  cases Arity.ofKind? kind with
  | none => rfl
  | some arity =>
    dsimp only
    split
    · cases ofKind? kind count <;> rfl
    · rfl

namespace Scope

variable (s : Scope)

theorem bindVariable_relocate (v : Variable) :
    s.bindVariable (v.relocate f) = (s.bindVariable v).relocate f (Variable.relocate f) id := by
  simp only [bindVariable, Variable.relocate]
  cases s.lookup v.name with
  | none => rfl
  | some symbol => cases symbol <;> rfl

theorem resolve_relocate (t : Token) (count : Nat) (known : Option Operator) :
    resolve (t.relocate f) count known = (resolve t count known).relocate f id := by
  cases known with
  | some op => rfl
  | none =>
    have hchosen : Traced.ofExcept (Operator.resolve (t.relocate f) count) =
        (Traced.ofExcept (Operator.resolve t count)).relocate f id :=
      congrArg Traced.ofExcept (Operator.resolve_relocate t count)
    exact Traced.bind_relocate hchosen fun op => rfl

theorem callee_relocate (t : Token) :
    s.callee (t.relocate f) = (s.callee t).relocate f id := by
  simp only [callee, Token.relocate]
  cases s.lookup t.text with
  | none => rfl
  | some symbol => cases symbol <;> rfl

theorem bindOperator_relocate (t : Token) (count : Nat) (known : Option Operator) :
    s.bindOperator (t.relocate f) count known = (s.bindOperator t count known).relocate f id := by
  refine Traced.bind_relocate (resolve_relocate t count known) fun op => ?_
  cases op with
  | call callee =>
    cases callee with
    | none => exact Traced.bind_relocate (s.callee_relocate t) fun _ => rfl
    | some index => rfl
  | _ => rfl

theorem bindExpression_relocate (e : Expression) :
    s.bindExpression (e.relocate f) =
      (s.bindExpression e).relocate f (Expression.relocate f) id := by
  induction e with
  | literal l =>
    rw [Expression.relocate, bindExpression, bindExpression]
    rfl
  | var v =>
    rw [Expression.relocate, bindExpression, bindExpression]
    exact Pass.mapTree_relocate (s.bindVariable_relocate v) fun _ => rfl
  | operation loc token es known type ih =>
    have hoperands : s.bindOperands (es.map (Expression.relocate f)) =
        (s.bindOperands es).relocate f (List.map (Expression.relocate f)) id := by
      rw [bindOperands_eq_all]
      exact Pass.all_relocate ih
    rw [Expression.relocate, Expression.relocateAll_eq_map, bindExpression, bindExpression,
      List.length_map, bindOperator_relocate, hoperands]
    cases h : (s.bindOperator token es.length known).result with
    | error fault => simp [Traced.relocate, Pass.relocate, Outcome.relocate, Expression.relocate, h]
    | ok op => simp [Traced.relocate, Pass.relocate, Outcome.relocate, Expression.relocate, h]

theorem bindStatement_relocate (t : Statement) :
    s.bindStatement (t.relocate f) =
      (s.bindStatement t).relocate f (Statement.relocate f) id := by
  rw [bindStatement_eq_pass]
  exact Statement.pass_relocate (fun _ => s.bindExpression_relocate) t

end Scope

namespace Program

theorem bindProcedure_relocate (p : Program) (q : Procedure) :
    (p.relocate f).bindProcedure (q.relocate f) =
      (p.bindProcedure q).relocate f (Procedure.relocate f) id :=
  q.pass_relocate (p.scope q).bindStatement_relocate rfl

theorem bindProcedures_relocate (p : Program) (qs : List Procedure) :
    (p.relocate f).bindProcedures (qs.map (Procedure.relocate f)) =
      (p.bindProcedures qs).relocate f (List.map (Procedure.relocate f)) id := by
  rw [bindProcedures_eq_all, bindProcedures_eq_all]
  exact Pass.all_relocate fun q _ => p.bindProcedure_relocate q

theorem bind_relocate (p : Program) :
    (p.relocate f).bind = p.bind.relocate f (Program.relocate f) id :=
  Pass.mapTree_relocate (p.bindProcedures_relocate p.procedures) fun _ => rfl

end Program

end ProcLang
