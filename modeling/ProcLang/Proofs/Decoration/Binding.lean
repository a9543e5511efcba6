import ProcLang.Proofs.Decoration.Visits
import ProcLang.Proofs.Scoping.Binding

/-! Binding is stopped at the first expression that cannot be bound, and does not come to those
behind it. -/
namespace ProcLang

/-- What an expression itself is bound to, apart from its operands. -/
def Expression.bound? : Expression → Option (Operator ⊕ Storage)
  | .literal _ => none
  | .var v => v.binding.map .inr
  | .operation _ _ _ op _ => op.map .inl

namespace Scope

variable {s : Scope}

/-- A visit fails if the expression itself cannot be bound, before any of its operands is looked at;
then it is left bound to what it was. -/
def walk (s : Scope) : Walk (Role × Expression) where
  Fails v seen fault := seen = [] ∧ s.bindNode v.2 = .error fault
  Leaves v v' := v'.2.bound? = v.2.bound? ∨ s.bindNode v.2 = .ok ()
  leaves_self _ := .inl rfl

theorem passes_of_ok (role : Role) {e : Expression} (h : s.bindNode e = .ok ()) :
    s.walk.Passes [(role, e)] := by
  rintro _ hv seen fault ⟨-, hfault⟩
  obtain rfl := List.mem_singleton.mp hv
  cases h.symm.trans hfault

theorem stopped_of_error (role : Role) {e : Expression} {fault : Fault}
    (h : s.bindNode e = .error fault) : Stopped s.walk fault (e.visits role) (e.visits role) := by
  have hfails : s.walk.Fails (role, e) [] fault := ⟨rfl, h⟩
  exact .first hfails (s.walk.leaves_self _) .nil (Expression.valueVisits e.operands)

theorem halts_bindOperands {es : List Expression}
    (h : ∀ e ∈ es, (s.bindExpression e).Halts s.walk (Expression.visits .value) e) :
    (s.bindOperands es).Halts s.walk Expression.valueVisits es := by
  have hvisits : Expression.valueVisits = List.flatMap (Expression.visits .value) :=
    funext Expression.valueVisits_eq_flatMap
  rw [bindOperands_eq_all, hvisits]
  exact Pass.Halts.all h

theorem halts_bindExpression (role : Role) (e : Expression) :
    (s.bindExpression e).Halts s.walk (Expression.visits role) e := by
  induction e generalizing role with
  | literal l =>
    rw [bindExpression]
    exact ⟨Walk.leavesAll_self _, fun _ _ => passes_of_ok role rfl, fun _ h => by cases h⟩
  | var v =>
    have hnode : s.bindNode (.var v) = (s.bindVariable v).result := rfl
    rw [bindExpression]
    cases hv : (s.bindVariable v).result with
    | ok a =>
      rw [hv] at hnode
      refine ⟨.cons (.inr hnode) .nil, fun _ _ => passes_of_ok role hnode, fun _ h => ?_⟩
      cases hv.symm.trans h
    | error fault =>
      have htree : (s.bindVariable v).tree = v := by
        unfold bindVariable at hv ⊢
        split <;> simp_all [Pass.stop]
      rw [hv] at hnode
      refine ⟨?_, fun _ h => ?_, fun _ h => ?_⟩
      · rw [Pass.mapTree_tree, htree]
        exact Walk.leavesAll_self _
      · cases hv.symm.trans h
      · cases hv.symm.trans h
        rw [Pass.mapTree_tree, htree]
        exact stopped_of_error role hnode
  | operation loc token es known type ih =>
    have hes := halts_bindOperands fun e he => ih e he .value
    have hnode : s.bindNode (.operation loc token es known type) =
        (s.bindOperator token es.length known).result >>= fun _ => .ok () := rfl
    rw [bindExpression]
    cases hop : (s.bindOperator token es.length known).result with
    | error fault =>
      rw [hop] at hnode
      refine ⟨Walk.leavesAll_self _, fun _ h => (by cases h), fun _ h => ?_⟩
      cases h
      exact stopped_of_error role hnode
    | ok op =>
      rw [hop] at hnode
      exact ⟨.cons (.inr hnode) hes.leaves,
        fun a ha => Walk.passes_append (passes_of_ok role hnode) (hes.passes a ha),
        fun fault h => (hes.stopped fault h).cons (passes_of_ok role hnode) (.inr hnode)⟩

theorem halts_bindStatement (t : Statement) :
    (s.bindStatement t).Halts s.walk Statement.visits t := by
  rw [bindStatement_eq_pass]
  exact Statement.halts_pass halts_bindExpression t

end Scope

namespace Program

variable (p : Program)

theorem halts_bindProcedure (q : Procedure) :
    (p.bindProcedure q).Halts (.within Scope.walk) (fun q => q.visits (p.scope q)) q := by
  refine Procedure.halts_pass (fun redo q' hq' => ?_) Scope.halts_bindStatement
  rw [scope, scope, hq'.symbols]

theorem halts_bind : p.bind.Halts (.within Scope.walk) (visits p.scope) p := by
  have hqs : (p.bindProcedures p.procedures).Halts (.within Scope.walk)
      (List.flatMap fun q => q.visits (p.scope q)) p.procedures := by
    rw [bindProcedures_eq_all]
    exact Pass.Halts.all fun q _ => p.halts_bindProcedure q
  exact ⟨hqs.leaves, hqs.passes, hqs.stopped⟩

end Program

end ProcLang
