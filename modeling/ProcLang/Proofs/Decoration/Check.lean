import ProcLang.Proofs.Decoration.Binding
import ProcLang.Proofs.Repetition.Check

/-! Checking is stopped at the first expression that breaks a rule, and does not come to those
behind it. -/
namespace ProcLang

namespace Typing.Context

variable {c : Typing.Context}

/-- The operands that a check comes to. It does not look into one that should be a storage location
and is none, and it goes no further than one that does not fit. -/
def reachedFrom (c : Typing.Context) (op : Operator) (before : List TypeAt) :
    List Expression → List Expression
  | [] => []
  | e :: es =>
    if op.wantsPlace before.length && !e.isPlace then []
    else
      match (c.checkPlaced op before e).result with
      | .error _ => [e]
      | .ok type => e :: c.reachedFrom op (before ++ [type]) es

/-- The operands of an expression that its check comes to. -/
def reached (c : Typing.Context) : Expression → List Expression
  | .operation loc token es (some op) _ =>
    match op.checkCount c loc token es.length with
    | .error _ => []
    | .ok () => c.reachedFrom op [] es
  | _ => []

/-- A visit fails if the expression does not pass, though all operands that its check comes to do.
Only an expression that passes is given a type. -/
def walk (c : Typing.Context) : Walk (Role × Expression) where
  Fails v seen fault :=
    (c.checkAs v.1 v.2).result = .error fault ∧ seen = Expression.valueVisits (c.reached v.2) ∧
      ∀ e ∈ c.reached v.2, ∃ type, (c.checkExpression e).result = .ok type
  Leaves v v' :=
    v'.2.type? = v.2.type? ∨
      ∃ type, (c.checkExpression v.2).result = .ok type ∧ v'.2.type? = some type
  leaves_self _ := .inl rfl

theorem checkPlaced_of_place {op : Operator} {before : List TypeAt} {e : Expression}
    (h : ¬(op.wantsPlace before.length && !e.isPlace) = true) :
    (c.checkPlaced op before e).tree = (c.checkExpression e).tree ∧
      ∀ fault, (c.checkExpression e).result = .error fault →
        (c.checkPlaced op before e).result = .error fault := by
  rw [checkPlaced, if_neg h]
  refine ⟨rfl, fun fault hfault => ?_⟩
  rw [Pass.require, hfault]
  rfl

/-- A check that comes through its operands has come to all of them. -/
theorem reachedFrom_of_ok {op : Operator} {before types : List TypeAt} {es : List Expression}
    (h : (c.checkOperands op before es).result = .ok types) : c.reachedFrom op before es = es := by
  induction es generalizing before with
  | nil => rfl
  | cons e es ih =>
    rw [checkOperands_cons, Pass.mapTree_result] at h
    obtain ⟨type, htype, hes⟩ := Pass.andThen_eq_ok.mp h
    have hplace : ¬(op.wantsPlace before.length && !e.isPlace) = true := by
      intro hplace
      simp [checkPlaced, hplace, Pass.stop] at htype
    rw [reachedFrom, if_neg hplace, htype]
    exact congrArg (e :: ·) (ih hes)

section

variable {es : List Expression}
  (h : ∀ e ∈ es, (c.checkExpression e).Halts c.walk (Expression.visits .value) e)

include h

/-- Behind the operands that a check comes to, it changes nothing. -/
theorem checkOperands_tree (op : Operator) (before : List TypeAt) :
    ∃ done rest, es = c.reachedFrom op before es ++ rest ∧
      (c.checkOperands op before es).tree = done ++ rest ∧
      c.walk.LeavesAll (Expression.valueVisits (c.reachedFrom op before es))
        (Expression.valueVisits done) := by
  induction es generalizing before with
  | nil => exact ⟨[], [], rfl, rfl, .nil⟩
  | cons e es ih =>
    obtain ⟨he, hes⟩ := List.forall_mem_cons.mp h
    rw [checkOperands_cons, reachedFrom]
    split
    next hplace =>
      refine ⟨[], e :: es, rfl, ?_, .nil⟩
      simp [checkPlaced, hplace, Pass.andThen, Pass.stop]
    next hplace =>
      have htree := (checkPlaced_of_place (c := c) hplace).1
      cases hresult : (c.checkPlaced op before e).result with
      | error fault =>
        refine ⟨[(c.checkExpression e).tree], es, rfl, ?_, ?_⟩
        · simp [Pass.andThen, hresult, htree]
        · simpa [Expression.valueVisits_cons] using he.leaves
      | ok type =>
        obtain ⟨done, rest, hsplit, hdone, hleaves⟩ := ih hes (before ++ [type])
        refine ⟨(c.checkExpression e).tree :: done, rest, ?_, ?_, ?_⟩
        · rw [List.cons_append, ← hsplit]
        · simp [Pass.andThen, hresult, htree, hdone]
        · rw [Expression.valueVisits_cons, Expression.valueVisits_cons]
          exact List.rel_append he.leaves hleaves

/-- An operand that does not pass stops the check inside it. -/
theorem checkOperands_stopped {op : Operator} {before : List TypeAt} {bad : Expression}
    (hbad : bad ∈ c.reachedFrom op before es)
    (hfault : ∀ type, (c.checkExpression bad).result ≠ .ok type) :
    ∃ fault, (c.checkOperands op before es).result = .error fault ∧
      Stopped c.walk fault (Expression.valueVisits es)
        (Expression.valueVisits (c.checkOperands op before es).tree) := by
  induction es generalizing before with
  | nil => cases hbad
  | cons e es ih =>
    obtain ⟨he, hes⟩ := List.forall_mem_cons.mp h
    rw [reachedFrom] at hbad
    rw [checkOperands_cons]
    split at hbad
    next => cases hbad
    next hplace =>
      obtain ⟨htree, herror⟩ := checkPlaced_of_place (c := c) hplace
      -- An operand that passes by itself may still not fit; then the check has not come to `bad`.
      cases hresult : (c.checkExpression e).result with
      | error fault =>
        have hresult' := herror fault hresult
        refine ⟨fault, by simp [Pass.andThen, hresult'], ?_⟩
        have hstopped := (he.stopped fault hresult).append_right (Expression.valueVisits es)
        simpa [Pass.andThen, hresult', htree, Expression.valueVisits_cons] using hstopped
      | ok type =>
        have hne : bad ≠ e := by
          rintro rfl
          exact hfault type hresult
        cases hresult' : (c.checkPlaced op before e).result with
        | error fault => simp [hresult', hne] at hbad
        | ok type' =>
          have hbad : bad ∈ c.reachedFrom op (before ++ [type']) es := by
            simpa [hresult', hne] using hbad
          obtain ⟨fault, hfault, hstopped⟩ := ih hes hbad
          refine ⟨fault, by simp [Pass.andThen, hresult', hfault], ?_⟩
          have hstopped := hstopped.append_left (he.passes type hresult) he.leaves
          simpa [Pass.andThen, hresult', htree, Expression.valueVisits_cons] using hstopped

end

/-- A check either does not come to the operands, or it goes by what it finds there. -/
theorem checkExpression_cases (e : Expression) :
    (c.reached e = [] ∧ (c.checkExpression e).tree.operands = e.operands ∧
      ∀ type, (c.checkExpression e).result = .ok type → e.operands = []) ∨
    ∃ op judge, c.reached e = c.reachedFrom op [] e.operands ∧
      (c.checkExpression e).tree.operands = (c.checkOperands op [] e.operands).tree ∧
      (c.checkExpression e).result = (c.checkOperands op [] e.operands).result.bind judge := by
  cases e with
  | literal l => exact .inl ⟨rfl, by rw [checkExpression], fun _ _ => rfl⟩
  | var v =>
    refine .inl ⟨rfl, ?_, fun _ _ => rfl⟩
    rw [checkExpression]
    split <;> rfl
  | operation loc token es known type =>
    cases known with
    | none =>
      rw [checkExpression]
      exact .inl ⟨rfl, rfl, fun _ h => by cases h⟩
    | some op =>
      rw [checkExpression, reached]
      cases op.checkCount c loc token es.length with
      | error fault => exact .inl ⟨rfl, rfl, fun _ h => by cases h⟩
      | ok _ =>
        refine .inr ⟨op, fun types => (op.judge c loc es types).map Judgement.type, rfl, ?_, ?_⟩
        · dsimp only
          split <;> rfl
        · dsimp only [Expression.operands]
          cases (c.checkOperands op [] es).result with
          | error fault => rfl
          | ok types =>
            simp only [Except.bind]
            cases op.judge c loc es types <;> rfl

/-- The operands that a check comes to are all it can change, apart from the type. -/
theorem checkExpression_operands {e : Expression}
    (h : ∀ o ∈ e.operands, (c.checkExpression o).Halts c.walk (Expression.visits .value) o) :
    ∃ done rest, e.operands = c.reached e ++ rest ∧
      (c.checkExpression e).tree.operands = done ++ rest ∧
      c.walk.LeavesAll (Expression.valueVisits (c.reached e)) (Expression.valueVisits done) := by
  rcases c.checkExpression_cases e with ⟨hreached, htree, -⟩ | ⟨op, judge, hreached, htree, -⟩
  · rw [hreached]
    exact ⟨[], e.operands, rfl, htree, .nil⟩
  · rw [hreached, htree]
    exact checkOperands_tree h op []

theorem reached_of_ok {e : Expression} {type : TypeAt}
    (h : (c.checkExpression e).result = .ok type) : c.reached e = e.operands := by
  rcases c.checkExpression_cases e with ⟨hreached, -, hok⟩ | ⟨op, judge, hreached, -, hresult⟩
  · rw [hreached, hok type h]
  · rw [hresult] at h
    obtain ⟨types, htypes, -⟩ := Outcome.bind_eq_ok.mp h
    rw [hreached, reachedFrom_of_ok htypes]

theorem leaves_checkExpression (role : Role) (e : Expression) :
    c.walk.Leaves (role, e) (role, (c.checkExpression e).tree) := by
  cases e with
  | literal l => exact .inl (by rw [checkExpression])
  | var v =>
    cases htype : c.variableType v with
    | error fault => exact .inl (by simp [checkExpression, htype, Pass.stop])
    | ok type => exact .inr ⟨type, by simp [checkExpression, htype, Expression.type?]⟩
  | operation loc token es known type =>
    cases known with
    | none => exact .inl (by rw [checkExpression]; rfl)
    | some op =>
      simp only [walk, checkExpression]
      split
      · exact .inl rfl
      · split
        · exact .inl rfl
        next judgement hjudgement => exact .inr ⟨judgement.type, rfl, rfl⟩

theorem checkAs_of_error (role : Role) {e : Expression} {fault : Fault}
    (h : (c.checkExpression e).result = .error fault) :
    (c.checkAs role e).result = .error fault := by
  cases role <;> simp [checkAs, checkCondition, checkReturn, Pass.require, h, Except.bind]

theorem passes_valueVisits {es : List Expression}
    (h : ∀ e ∈ es, c.walk.Passes (e.visits .value)) :
    c.walk.Passes (Expression.valueVisits es) := by
  induction es with
  | nil => simp [Walk.Passes]
  | cons e es ih =>
    obtain ⟨he, hes⟩ := List.forall_mem_cons.mp h
    rw [Expression.valueVisits_cons]
    exact Walk.passes_append he (ih hes)

section

variable {e : Expression}
  (h : ∀ o ∈ e.operands, (c.checkExpression o).Halts c.walk (Expression.visits .value) o)

include h

theorem leaves_checkAs (role : Role) :
    c.walk.LeavesAll (e.visits role) ((c.checkAs role e).tree.visits role) := by
  rw [checkAs_tree]
  refine .cons (leaves_checkExpression role e) ?_
  obtain ⟨done, rest, hsplit, htree, hleaves⟩ := checkExpression_operands h
  rw [hsplit, htree, Expression.valueVisits_append, Expression.valueVisits_append]
  exact List.rel_append hleaves (Walk.leavesAll_self _)

theorem stopped_here {role : Role} {fault : Fault}
    (hfault : (c.checkAs role e).result = .error fault)
    (hpass : ∀ o ∈ c.reached e, ∃ type, (c.checkExpression o).result = .ok type) :
    Stopped c.walk fault (e.visits role) ((c.checkAs role e).tree.visits role) := by
  obtain ⟨done, rest, hsplit, htree, hleaves⟩ := checkExpression_operands h
  have hfails : c.walk.Fails (role, e) (Expression.valueVisits (c.reached e)) fault :=
    ⟨hfault, rfl, hpass⟩
  rw [checkAs_tree, Expression.visits, Expression.visits, hsplit, htree,
    Expression.valueVisits_append, Expression.valueVisits_append]
  exact .first hfails (leaves_checkExpression role e) hleaves _

theorem stopped_inside (role : Role) {bad : Expression} (hbad : bad ∈ c.reached e)
    (hfault : ∀ type, (c.checkExpression bad).result ≠ .ok type) :
    ∃ fault, (c.checkAs role e).result = .error fault ∧
      Stopped c.walk fault (e.visits role) ((c.checkAs role e).tree.visits role) := by
  have hpasses : c.walk.Passes [(role, e)] := by
    rintro _ hv seen fault ⟨-, -, hpass⟩
    obtain rfl := List.mem_singleton.mp hv
    obtain ⟨type, htype⟩ := hpass bad hbad
    exact hfault type htype
  rcases c.checkExpression_cases e with ⟨hreached, -, -⟩ | ⟨op, judge, hreached, htree, hresult⟩
  · rw [hreached] at hbad
    cases hbad
  · rw [hreached] at hbad
    obtain ⟨fault, hoperands, hstopped⟩ := checkOperands_stopped h hbad hfault
    rw [hoperands] at hresult
    refine ⟨fault, checkAs_of_error role hresult, ?_⟩
    rw [checkAs_tree, Expression.visits, Expression.visits, htree]
    exact hstopped.cons hpasses (leaves_checkExpression role e)

theorem passes_checkAs {role : Role} (hok : (c.checkAs role e).result = .ok ())
    (hpass : ∀ o ∈ c.reached e, ∃ type, (c.checkExpression o).result = .ok type) :
    c.walk.Passes (e.visits role) := by
  have hhere : c.walk.Passes [(role, e)] := by
    rintro _ hv seen fault ⟨hfault, -⟩
    obtain rfl := List.mem_singleton.mp hv
    cases hok.symm.trans hfault
  refine Walk.passes_append hhere ?_
  cases hresult : (c.checkExpression e).result with
  | error fault => cases (checkAs_of_error role hresult).symm.trans hok
  | ok type =>
    rw [reached_of_ok hresult] at hpass
    refine passes_valueVisits fun o ho => ?_
    obtain ⟨type, htype⟩ := hpass o ho
    exact (h o ho).passes type htype

theorem halts_checkAs_of_operands (role : Role) :
    (c.checkAs role e).Halts c.walk (Expression.visits role) e := by
  -- If the operands that are reached all pass, only the expression itself can be at fault.
  by_cases hpass : ∀ o ∈ c.reached e, ∃ type, (c.checkExpression o).result = .ok type
  · refine ⟨leaves_checkAs h role, fun a ha => ?_, fun fault hfault => stopped_here h hfault hpass⟩
    exact passes_checkAs h ha hpass
  · push Not at hpass
    obtain ⟨bad, hbad, hfault⟩ := hpass
    obtain ⟨fault, hresult, hstopped⟩ := stopped_inside h role hbad hfault
    refine ⟨leaves_checkAs h role, fun a ha => ?_, fun fault' hfault' => ?_⟩
    · cases hresult.symm.trans ha
    · cases hresult.symm.trans hfault'
      exact hstopped

end

theorem halts_checkExpression (e : Expression) :
    (c.checkExpression e).Halts c.walk (Expression.visits .value) e := by
  have hstep : ∀ e : Expression,
      (∀ o ∈ e.operands, (c.checkExpression o).Halts c.walk (Expression.visits .value) o) →
      (c.checkExpression e).Halts c.walk (Expression.visits .value) e := by
    intro e h
    have hvalue := halts_checkAs_of_operands h .value
    exact ⟨hvalue.leaves, fun a ha => hvalue.passes () (Pass.require_eq_ok.mpr ⟨a, ha, rfl⟩),
      fun fault hfault => hvalue.stopped fault (checkAs_of_error .value hfault)⟩
  induction e with
  | literal l => exact hstep (.literal l) (by simp [Expression.operands])
  | var v => exact hstep (.var v) (by simp [Expression.operands])
  | operation loc token es known type ih => exact hstep (.operation loc token es known type) ih

theorem halts_checkAs (role : Role) (e : Expression) :
    (c.checkAs role e).Halts c.walk (Expression.visits role) e :=
  halts_checkAs_of_operands (fun o _ => halts_checkExpression o) role

theorem halts_checkStatement (t : Statement) :
    (c.checkStatement t).Halts c.walk Statement.visits t := by
  rw [checkStatement_eq_pass]
  exact Statement.halts_pass halts_checkAs t

end Typing.Context

namespace Program

variable (p : Program)

theorem halts_checkProcedure (q : Procedure) :
    (p.checkProcedure q).Halts (.within Typing.Context.walk)
      (fun q => q.visits (p.context q)) q := by
  refine Procedure.halts_pass (fun redo q' hq' => ?_) Typing.Context.halts_checkStatement
  rw [context, context, hq'.parameters, hq'.locals, hq'.returns]

theorem halts_checkProcedures (qs : List Procedure) :
    (p.checkProcedures qs).Halts (.within Typing.Context.walk)
      (List.flatMap fun q => q.visits (p.context q)) qs := by
  rw [checkProcedures_eq_all]
  exact Pass.Halts.all fun q _ => p.halts_checkProcedure q

/-- A check that fails over a declaration comes to no body. -/
theorem check_stopped {fault : Fault} (h : p.check.result = .error fault) :
    (p.checkDeclarations = .error fault ∧ p.check.tree = p) ∨
      (p.checkDeclarations = .ok () ∧ Stopped (.within Typing.Context.walk) fault
        (p.visits p.context) (p.check.tree.visits p.context)) := by
  unfold check at h ⊢
  cases hdeclarations : p.checkDeclarations with
  | error fault' =>
    simp only [hdeclarations, Pass.stop] at h
    cases h
    exact .inl ⟨rfl, rfl⟩
  | ok _ =>
    refine .inr ⟨rfl, (p.halts_checkProcedures p.procedures).stopped fault ?_⟩
    simp only [hdeclarations] at h
    cases hbodies : (p.checkProcedures p.procedures).result with
    | error fault' => simpa [hbodies, Except.map] using h
    | ok _ => simp [hbodies, Except.map] at h

/-- Binding changes nothing but what operations and names are bound to, and checking nothing but the
types of both. Either is stopped at the first expression that it refuses, and leaves everything
behind that as it was. -/
theorem passes_only_decorate (p : Program) :
    p.bind.tree.mapExpressions Expression.unbind = p.mapExpressions Expression.unbind ∧
    p.check.tree.clearTypes = p.clearTypes ∧
    (∀ fault, p.bind.result = .error fault →
      Stopped (.within Scope.walk) fault (p.visits p.scope) (p.bind.tree.visits p.scope)) ∧
    ∀ fault, p.check.result = .error fault →
      (p.checkDeclarations = .error fault ∧ p.check.tree = p) ∨
      (p.checkDeclarations = .ok () ∧ Stopped (.within Typing.Context.walk) fault
        (p.visits p.context) (p.check.tree.visits p.context)) :=
  ⟨p.unbind_bind, p.clearTypes_check, p.halts_bind.stopped, fun _ => p.check_stopped⟩

end Program

end ProcLang
