import ProcLang.Proofs.Codegen.Shape
import ProcLang.Proofs.Order.Renumbering

/-! Generating code under new indices: addresses and calls come out the same. -/
namespace ProcLang.Codegen

open Assembly

/-- The same storage and the same procedures under new indices. -/
structure Context.Renumbers (ρ : Renumbering) (g g' : Codegen.Context) : Prop where
  address : ∀ v a, g.address v = .ok a → g'.address (v.renumber ρ) = .ok a
  callee : ∀ (index : Nat) (q : Procedure), g.procedures[index]? = some q →
    ∃ q', g'.procedures[ρ.procedure index]? = some q' ∧ callCode q' = callCode q
  frame : g'.frame = g.frame

variable {ρ : Renumbering} {g g' : Codegen.Context} {code : Code}

theorem operandsCode_renumber {es : List Expression}
    (ih : ∀ e ∈ es, ∀ code, expressionCode g e = .ok code →
      expressionCode g' (e.renumber ρ) = .ok code)
    (h : operandsCode g es = .ok code) :
    operandsCode g' (es.map (Expression.renumber ρ)) = .ok code := by
  induction es generalizing code with
  | nil => exact h
  | cons e es ihs =>
    rw [operandsCode] at h
    obtain ⟨rest, hrest, h⟩ := Outcome.bind_eq_ok.mp h
    obtain ⟨first, hfirst, h⟩ := Outcome.bind_eq_ok.mp h
    rw [List.map_cons, operandsCode, ihs (fun e he => ih e (List.mem_cons_of_mem _ he)) hrest,
      Outcome.ok_bind, ih e List.mem_cons_self first hfirst]
    exact h

theorem closes_renumber (hg : g.Renumbers ρ g') {count : Nat} {type : Option TypeAt}
    {op : Operator} (h : Closes g count type op code) :
    Closes g' count type (op.renumber ρ) code := by
  cases h with
  | load htype hwidth => exact .load htype hwidth
  | @call callee q hcallee hfew =>
    obtain ⟨index, rfl, hq⟩ := Option.bind_eq_some_iff.mp hcallee
    obtain ⟨q', hq', hcode⟩ := hg.callee index q hq
    rw [← hcode]
    exact .call (by simpa using hq') hfew
  | plain hplain =>
    rw [Operator.renumber_of_ne fun index heq => by cases heq ▸ hplain]
    exact .plain hplain

/-- An expression has the same code, as a value and as a place. -/
theorem expressionCode_renumber (hg : g.Renumbers ρ g') (e : Expression) :
    (∀ code, expressionCode g e = .ok code → expressionCode g' (e.renumber ρ) = .ok code) ∧
      ∀ code, addressCode g e = .ok code → addressCode g' (e.renumber ρ) = .ok code := by
  induction e with
  | literal l =>
    refine ⟨fun code h => ?_, fun code h => by cases h⟩
    rw [expressionCode] at h
    rw [Expression.renumber_literal, expressionCode, h]
  | var v =>
    refine ⟨fun code h => ?_, fun code h => ?_⟩
    · rw [expressionCode] at h
      obtain ⟨address, haddress, h⟩ := Outcome.bind_eq_ok.mp h
      rw [Expression.renumber_var, expressionCode, hg.address v address haddress, Outcome.ok_bind]
      exact h
    · rw [addressCode] at h
      obtain ⟨address, haddress, h⟩ := Outcome.bind_eq_ok.mp h
      rw [Expression.renumber_var, addressCode, hg.address v address haddress, Outcome.ok_bind]
      exact h
  | operation loc token es op type ih =>
    refine ⟨fun code h => ?_, fun code h => ?_⟩
    · rw [Expression.renumber_operation]
      cases op with
      | none => simp [expressionCode] at h
      | some op =>
        by_cases href : op = .reference
        · subst href
          obtain ⟨e, rfl, h⟩ := expressionCode_reference h
          exact (ih e (by simp)).2 code h
        by_cases hassign : op = .assignment
        · subst hassign
          obtain ⟨target, value, rfl, -⟩ := expressionCode_assignment h
          rw [expressionCode] at h
          obtain ⟨valueCode, hvalue, h⟩ := Outcome.bind_eq_ok.mp h
          obtain ⟨targetCode, htarget, h⟩ := Outcome.bind_eq_ok.mp h
          have htype : (target.renumber ρ).type = target.type := by simp [Expression.type]
          simp only [List.map_cons, List.map_nil, Option.map_some, Operator.renumber]
          rw [expressionCode, (ih value (by simp)).1 _ hvalue, Outcome.ok_bind,
            (ih target (by simp)).2 _ htarget, Outcome.ok_bind, htype]
          exact h
        obtain ⟨operands, tail, hoperands, htail, rfl⟩ := expressionCode_operands h href hassign
        refine expressionCode_of_closes
          (operandsCode_renumber (fun e he => (ih e he).1) hoperands) ?_
        rw [List.length_map]
        exact closes_renumber hg htail
    · obtain ⟨rfl, e, rfl, he⟩ := addressCode_operation h
      rw [Expression.renumber_operation]
      exact (ih e (by simp)).1 code he

theorem conditionCode_renumber (hg : g.Renumbers ρ g') {e : Expression} {target : Label}
    (h : conditionCode g e target = .ok code) :
    conditionCode g' (e.renumber ρ) target = .ok code := by
  obtain ⟨test, htest, rfl⟩ := conditionCode_iff.mp h
  exact conditionCode_iff.mpr ⟨test, (expressionCode_renumber hg e).1 test htest, rfl⟩

theorem statementCode_renumber (hg : g.Renumbers ρ g') {s : Statement}
    (h : statementCode g s = .ok code) :
    statementCode g' (s.map (Expression.renumber ρ)) = .ok code := by
  induction s generalizing code with
  | block loc body ih =>
    rw [Statement.map_block]
    rw [statementCode] at h ⊢
    induction body generalizing code with
    | nil => exact h
    | cons s ss ihs =>
      rw [statementsCode] at h
      obtain ⟨first, hfirst, h⟩ := Outcome.bind_eq_ok.mp h
      obtain ⟨rest, hrest, h⟩ := Outcome.bind_eq_ok.mp h
      rw [List.map_cons, statementsCode, ih s (by simp) hfirst, Outcome.ok_bind,
        ihs (fun s hs => ih s (by simp [hs])) hrest]
      exact h
  | ifThen loc condition yes ih =>
    rw [statementCode] at h
    obtain ⟨test, htest, h⟩ := Outcome.bind_eq_ok.mp h
    obtain ⟨yesCode, hyes, h⟩ := Outcome.bind_eq_ok.mp h
    rw [Statement.map_ifThen, statementCode, conditionCode_renumber hg htest, Outcome.ok_bind,
      ih hyes]
    exact h
  | ifThenElse loc condition yes no ihy ihn =>
    rw [statementCode] at h
    obtain ⟨test, htest, h⟩ := Outcome.bind_eq_ok.mp h
    obtain ⟨yesCode, hyes, h⟩ := Outcome.bind_eq_ok.mp h
    obtain ⟨noCode, hno, h⟩ := Outcome.bind_eq_ok.mp h
    rw [Statement.map_ifThenElse, statementCode, conditionCode_renumber hg htest,
      Outcome.ok_bind, ihy hyes, Outcome.ok_bind, ihn hno]
    exact h
  | loop loc condition body ih =>
    rw [statementCode] at h
    obtain ⟨test, htest, h⟩ := Outcome.bind_eq_ok.mp h
    obtain ⟨bodyCode, hbody, h⟩ := Outcome.bind_eq_ok.mp h
    rw [Statement.map_loop, statementCode, conditionCode_renumber hg htest, Outcome.ok_bind,
      ih hbody]
    exact h
  | ret loc value =>
    cases value with
    | none => exact h
    | some e =>
      rw [statementCode] at h
      obtain ⟨value, hvalue, h⟩ := Outcome.bind_eq_ok.mp h
      rw [Statement.map_ret, Option.map_some, statementCode,
        (expressionCode_renumber hg e).1 value hvalue]
      exact h
  | expression e =>
    rw [statementCode] at h
    obtain ⟨value, hvalue, h⟩ := Outcome.bind_eq_ok.mp h
    rw [Statement.map_expression, statementCode, (expressionCode_renumber hg e).1 value hvalue]
    exact h

theorem procedureCode_renumber (hg : g.Renumbers ρ g') {q : Procedure} {body : Statement}
    (h : procedureCode g q body = .ok code) :
    procedureCode g' (q.map (Expression.renumber ρ)) (body.map (Expression.renumber ρ)) =
      .ok code := by
  have hredone := q.redone_map (Expression.renumber ρ)
  unfold procedureCode at h ⊢
  obtain ⟨saved, hsaved, h⟩ := Outcome.bind_eq_ok.mp h
  obtain ⟨bodyCode, hbody, h⟩ := Outcome.bind_eq_ok.mp h
  rw [hredone.name, hredone.parameters, hredone.locals, hg.frame, hsaved, Outcome.ok_bind,
    statementCode_renumber hg hbody]
  exact h

end ProcLang.Codegen
