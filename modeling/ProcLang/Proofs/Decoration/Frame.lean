import ProcLang.Proofs.Binding
import ProcLang.Proofs.Typing.Program

/-! Binding decides on operators and on what names are bound to, and checking decides on types. A
program keeps everything else, whether they end well or not. -/
namespace ProcLang

namespace Expression

mutual

/-- The expression without its operators and without what its names are bound to. -/
def unbind : Expression → Expression
  | .literal l => .literal l
  | .var v => .var { v with binding := none }
  | .operation loc token operands _ type => .operation loc token (unbindAll operands) none type

def unbindAll : List Expression → List Expression
  | [] => []
  | e :: es => e.unbind :: unbindAll es

end

theorem unbindAll_eq_map (es : List Expression) : unbindAll es = es.map unbind := by
  induction es with
  | nil => rfl
  | cons e es ih => simp [unbindAll, ih]

theorem parts_unbind (e : Expression) : e.unbind.parts = e.parts.map unbind := by
  induction e with
  | literal l => simp [unbind]
  | var v => simp [unbind]
  | operation loc token es op type ih =>
    have hes : (es.map unbind).flatMap parts = (es.flatMap parts).map unbind := by
      rw [List.flatMap_map, List.map_flatMap]
      exact List.flatMap_congr ih
    simp only [unbind, parts, unbindAll_eq_map, operandParts_eq_flatMap, hes, List.map_cons]

end Expression

namespace Scope

variable {s : Scope}

theorem unbind_bindExpression (e : Expression) : (s.bindExpression e).tree.unbind = e.unbind := by
  induction e with
  | literal l => rw [bindExpression]
  | var v =>
    rw [bindExpression, Pass.mapTree_tree, bindVariable]
    split <;> rfl
  | operation loc token es known type ih =>
    have hes : (s.bindOperands es).tree.map Expression.unbind = es.map Expression.unbind := by
      rw [bindOperands_eq_all]
      exact Pass.map_all_tree ih
    rw [bindExpression]
    dsimp only
    split
    · rfl
    · simp [Expression.unbind, Expression.unbindAll_eq_map, hes]

theorem unbind_bindStatement (t : Statement) :
    (s.bindStatement t).tree.map Expression.unbind = t.map Expression.unbind := by
  rw [bindStatement_eq_pass]
  exact Statement.map_pass_tree (fun _ => unbind_bindExpression) t

end Scope

namespace Program

theorem unbind_bind (p : Program) :
    p.bind.tree.mapExpressions Expression.unbind = p.mapExpressions Expression.unbind := by
  have hqs : (p.bindProcedures p.procedures).tree.map (Procedure.map Expression.unbind) =
      p.procedures.map (Procedure.map Expression.unbind) := by
    rw [bindProcedures_eq_all]
    exact Pass.map_all_tree fun q _ => Procedure.map_pass_tree Scope.unbind_bindStatement
  simp [bind, mapExpressions_eq, hqs]

/-- A change that goes to all parts of an expression and keeps literals keeps those of a program. -/
theorem literals_mapExpressions {f : Expression → Expression}
    (hparts : ∀ e, (f e).parts = e.parts.map f) (hliteral : ∀ e, (f e).literal? = e.literal?)
    (p : Program) :
    (p.mapExpressions f).parts.filterMap Expression.literal? =
      p.parts.filterMap Expression.literal? := by
  have hbody : ∀ s : Statement, (s.map f).parts = s.parts.map f := by
    intro s
    rw [Statement.parts, Statement.expressions_map, List.flatMap_map, Statement.parts,
      List.map_flatMap]
    exact List.flatMap_congr fun e _ => hparts e
  have hprogram : (p.mapExpressions f).parts = p.parts.map f := by
    rw [mapExpressions_eq, parts, parts, List.flatMap_map, List.map_flatMap]
    refine List.flatMap_congr fun q _ => ?_
    rw [Procedure.body?_map]
    cases q.body? with
    | none => rfl
    | some body => exact hbody body
  rw [hprogram, List.filterMap_map]
  exact List.filterMap_congr fun e _ => hliteral e

theorem literals_bind (p : Program) :
    p.bind.tree.parts.filterMap Expression.literal? = p.parts.filterMap Expression.literal? := by
  have hliteral : ∀ e : Expression, e.unbind.literal? = e.literal? := by
    rintro (l | v | _) <;> rfl
  have hkeeps := literals_mapExpressions Expression.parts_unbind hliteral
  rw [← hkeeps, unbind_bind, hkeeps]

theorem literals_check (p : Program) :
    p.check.tree.parts.filterMap Expression.literal? = p.parts.filterMap Expression.literal? := by
  have hliteral : ∀ e : Expression, e.clearTypes.literal? = e.literal? := by
    rintro (l | v | _) <;> rfl
  have hkeeps := literals_mapExpressions Expression.parts_clearTypes hliteral
  rw [← hkeeps, ← hkeeps p]
  exact congrArg (fun q : Program => q.parts.filterMap Expression.literal?) p.clearTypes_check

end Program

end ProcLang
