import ProcLang.Proofs.Traversal
import ProcLang.Proofs.Typing.Exact

/-! The check of a whole program: what passes is what keeps the rules. -/
namespace ProcLang

namespace Typing.Context

variable {c : Typing.Context}

theorem hasType_iff_check {e : Expression} {τ : Ty} :
    c.HasType e τ ↔ ∃ t, (c.checkExpression e).result = .ok t ∧ t.ty = τ := by
  refine ⟨check_of_hasType, ?_⟩
  rintro ⟨t, ht, rfl⟩
  exact (hasType_of_check ht).1

theorem checkCondition_eq_ok {e : Expression} :
    (c.checkCondition e).result = .ok () ↔ c.HasType e .bool := by
  rw [checkCondition, Pass.require_eq_ok, hasType_iff_check]
  simp

theorem checkReturn_eq_ok {loc : Nat} {e : Expression} :
    (c.checkReturn loc e).result = .ok () ↔ c.HasType e c.returns.ty := by
  rw [checkReturn, Pass.require_eq_ok, hasType_iff_check]
  simp

theorem checkStatement_eq_ok {s : Statement} :
    (c.checkStatement s).result = .ok () ↔ c.WellTyped s := by
  induction s with
  | block loc body ih =>
    rw [checkStatement, Pass.mapTree_result, checkStatements_eq_all, Pass.all_eq_ok]
    refine ⟨fun h => .block fun s hs => (ih s hs).mp (h s hs), ?_⟩
    rintro ⟨h⟩ s hs
    exact (ih s hs).mpr (h s hs)
  | ifThen loc condition yes ih =>
    simp only [checkStatement, Pass.mapTree_result, Pass.andThen_unit_eq_ok,
      checkCondition_eq_ok, ih]
    constructor
    · rintro ⟨ht, hy⟩
      exact .ifThen ht hy
    · intro h
      cases h with
      | ifThen ht hy => exact ⟨ht, hy⟩
  | ifThenElse loc condition yes no ihy ihn =>
    simp only [checkStatement, Pass.mapTree_result, Pass.andThen_unit_eq_ok,
      checkCondition_eq_ok, ihy, ihn]
    constructor
    · rintro ⟨ht, hy, hn⟩
      exact .ifThenElse ht hy hn
    · intro h
      cases h with
      | ifThenElse ht hy hn => exact ⟨ht, hy, hn⟩
  | loop loc condition body ih =>
    simp only [checkStatement, Pass.mapTree_result, Pass.andThen_unit_eq_ok,
      checkCondition_eq_ok, ih]
    constructor
    · rintro ⟨ht, hb⟩
      exact .loop ht hb
    · intro h
      cases h with
      | loop ht hb => exact ⟨ht, hb⟩
  | ret loc value =>
    cases value with
    | none =>
      rw [checkStatement]
      exact ⟨fun _ => .ret loc, fun _ => rfl⟩
    | some e =>
      rw [checkStatement, Pass.mapTree_result, checkReturn_eq_ok]
      refine ⟨.retValue, ?_⟩
      intro h
      cases h with
      | retValue ht => exact ht
  | expression e =>
    simp only [checkStatement, Pass.mapTree_result, Pass.require_eq_ok]
    constructor
    · rintro ⟨t, ht, -⟩
      exact .expression (hasType_of_check ht).1
    · intro h
      cases h with
      | expression ht =>
        obtain ⟨t, ht, -⟩ := check_of_hasType ht
        exact ⟨t, ht, trivial⟩

/-- A checked expression has the same type as before, and all of it is on record. -/
theorem tree_of_hasType {e : Expression} {τ : Ty} (h : c.HasType e τ) :
    c.HasType (c.checkExpression e).tree τ ∧
      ∀ e' ∈ (c.checkExpression e).tree.parts, c.Recorded e' := by
  obtain ⟨t, ht, rfl⟩ := check_of_hasType h
  exact (recorded_of_check ht).2

/-- A check changes a statement in its expressions only. -/
theorem checkStatement_tree_of_wellTyped {s : Statement} (h : c.WellTyped s) :
    (c.checkStatement s).tree = s.map fun e => (c.checkExpression e).tree := by
  have hok := checkStatement_eq_ok.mpr h
  rw [checkStatement_eq_pass] at hok ⊢
  exact Statement.pass_tree_of_ok c.checkAs_tree hok

theorem WellTyped.exists_hasType {s : Statement} (h : c.WellTyped s) :
    ∀ e ∈ s.expressions, ∃ τ, c.HasType e τ := by
  induction h with
  | block _ ih =>
    intro e he
    obtain ⟨s, hs, he⟩ := Statement.mem_allExpressions.mp he
    exact ih s hs e he
  | ifThen ht _ ih | loop ht _ ih =>
    rw [Statement.expressions, List.forall_mem_cons]
    exact ⟨⟨_, ht⟩, ih⟩
  | ifThenElse ht _ _ ihy ihn =>
    rw [Statement.expressions, List.forall_mem_append, List.forall_mem_cons]
    exact ⟨⟨⟨_, ht⟩, ihy⟩, ihn⟩
  | ret loc => simp [Statement.expressions]
  | retValue ht | expression ht => simpa [Statement.expressions] using ⟨_, ht⟩

/-- Expressions may be changed if they keep their types. -/
theorem WellTyped.map {c' : Typing.Context} {f : Expression → Expression} {s : Statement}
    (h : c.WellTyped s) (hreturns : c'.returns = c.returns)
    (hf : ∀ e τ, c.HasType e τ → c'.HasType (f e) τ) : c'.WellTyped (s.map f) := by
  induction h with
  | block _ ih =>
    rw [Statement.map_block]
    exact .block (List.forall_mem_map.mpr ih)
  | ifThen ht _ ih =>
    rw [Statement.map_ifThen]
    exact .ifThen (hf _ _ ht) ih
  | ifThenElse ht _ _ ihy ihn =>
    rw [Statement.map_ifThenElse]
    exact .ifThenElse (hf _ _ ht) ihy ihn
  | loop ht _ ih =>
    rw [Statement.map_loop]
    exact .loop (hf _ _ ht) ih
  | ret loc =>
    rw [Statement.map_ret]
    exact .ret loc
  | retValue ht =>
    rw [Statement.map_ret]
    exact .retValue (hreturns ▸ hf _ _ ht)
  | expression ht =>
    rw [Statement.map_expression]
    exact .expression (hf _ _ ht)

theorem tree_of_wellTyped {s : Statement} (h : c.WellTyped s) :
    c.WellTyped (c.checkStatement s).tree ∧
      ∀ e ∈ (c.checkStatement s).tree.parts, c.Recorded e := by
  rw [checkStatement_tree_of_wellTyped h]
  refine ⟨h.map rfl fun e τ ht => (tree_of_hasType ht).1, fun e he => ?_⟩
  obtain ⟨e', he', hpart⟩ := Statement.mem_parts.mp he
  rw [Statement.expressions_map] at he'
  obtain ⟨e₀, he₀, rfl⟩ := List.mem_map.mp he'
  obtain ⟨τ, ht⟩ := h.exists_hasType e₀ he₀
  exact (tree_of_hasType ht).2 e hpart

theorem clearTypes_operands {es : List Expression}
    (h : ∀ e ∈ es, (c.checkExpression e).tree.clearTypes = e.clearTypes) (op : Operator)
    (before : List TypeAt) :
    (c.checkOperands op before es).tree.map Expression.clearTypes =
      es.map Expression.clearTypes := by
  induction es generalizing before with
  | nil => rfl
  | cons e es ih =>
    have hes := ih fun e he => h e (List.mem_cons_of_mem _ he)
    rw [checkOperands]
    split
    next => rfl
    next =>
      simp only [Pass.mapTree_tree, Pass.andThen]
      split <;> simp [h e, hes]

/-- Nothing but types is recorded, also by a check that fails on the way. -/
theorem clearTypes_tree (e : Expression) :
    (c.checkExpression e).tree.clearTypes = e.clearTypes := by
  induction e with
  | literal l => rw [checkExpression]
  | var v =>
    rw [checkExpression]
    split <;> rfl
  | operation loc token es op type ih =>
    cases op with
    | none => rw [checkExpression]; rfl
    | some op =>
      have hes := clearTypes_operands ih op []
      rw [checkExpression]
      split
      next => rfl
      next =>
        dsimp only
        split <;> simp [Expression.clearTypes, Expression.clearAllTypes_eq_map, hes]

theorem map_clearTypes_tree (s : Statement) :
    (c.checkStatement s).tree.map Expression.clearTypes = s.map Expression.clearTypes := by
  rw [checkStatement_eq_pass]
  refine Statement.map_pass_tree (fun role e => ?_) s
  rw [checkAs_tree, clearTypes_tree]

end Typing.Context

theorem Declaration.check_eq_ok {d : Declaration} : d.check = .ok () ↔ d.type.ty ≠ .void := by
  simp [check]

theorem Parameter.checkAll_eq_ok {external : Bool} {ps : List Parameter} :
    checkAll external ps = .ok () ↔
      (∀ d, .var d ∈ ps → d.type.ty ≠ .void) ∧
        ∀ i loc, ps[i]? = some (.etcetera loc) → external ∧ i + 1 = ps.length := by
  induction ps with
  | nil => simp [checkAll]
  | cons q ps ih =>
    cases q with
    | var d =>
      simp only [checkAll, Outcome.bind_unit_eq_ok, Declaration.check_eq_ok, ih]
      constructor
      · rintro ⟨hd, hvars, hrest⟩
        refine ⟨by simpa using ⟨hd, hvars⟩, fun i loc hi => ?_⟩
        cases i with
        | zero => cases hi
        | succ i =>
          obtain ⟨hext, hlen⟩ := hrest i loc hi
          exact ⟨hext, congrArg (· + 1) hlen⟩
      · rintro ⟨hvars, hrest⟩
        refine ⟨hvars d (by simp), fun d hd => hvars d (List.mem_cons_of_mem _ hd), ?_⟩
        intro i loc hi
        obtain ⟨hext, hlen⟩ := hrest (i + 1) loc hi
        exact ⟨hext, Nat.succ.inj hlen⟩
    | etcetera loc =>
      rw [checkAll]
      constructor
      · intro h
        split at h
        next => cases h
        next hext =>
          split at h
          next hps =>
            obtain rfl : ps = [] := by simpa using hps
            exact ⟨by simp, fun i _ hi => by cases i <;> simp_all⟩
          next => cases h
      · rintro ⟨-, hrest⟩
        obtain ⟨hext, hlen⟩ := hrest 0 loc rfl
        obtain rfl : ps = [] := by simpa using hlen
        simp [hext]

theorem Procedure.checkDeclaration_eq_ok {p : Procedure} :
    p.checkDeclaration = .ok () ↔
      (∀ d, .var d ∈ p.parameters → d.type.ty ≠ .void) ∧
        (∀ i loc, p.parameters[i]? = some (.etcetera loc) →
          p.isExternal ∧ i + 1 = p.parameters.length) ∧
        (¬p.isExternal → p.parameters.length ≤ maxArguments) ∧
        ∀ d ∈ p.locals, d.type.ty ≠ .void := by
  have hfew : (!p.isExternal && decide (maxArguments < p.parameters.length)) = true ↔
      ¬(¬p.isExternal → p.parameters.length ≤ maxArguments) := by
    simp
  simp only [checkDeclaration, Outcome.bind_unit_eq_ok, Parameter.checkAll_eq_ok,
    List.forM_eq_forM]
  constructor
  · rintro ⟨⟨hvars, hetc⟩, h⟩
    split at h
    next => cases h
    next hle =>
      rw [hfew, not_not] at hle
      simp only [Outcome.forM_eq_ok, Declaration.check_eq_ok] at h
      exact ⟨hvars, hetc, hle, h⟩
  · rintro ⟨hvars, hetc, hle, hlocals⟩
    refine ⟨⟨hvars, hetc⟩, ?_⟩
    rw [if_neg (by rw [hfew, not_not]; exact hle)]
    simpa only [Outcome.forM_eq_ok, Declaration.check_eq_ok] using hlocals

namespace Program

variable {p : Program}

theorem checkDeclarations_eq_ok :
    p.checkDeclarations = .ok () ↔
      (∀ d ∈ p.globals, d.type.ty ≠ .void) ∧
        ∀ q ∈ p.procedures, q.checkDeclaration = .ok () := by
  simp [checkDeclarations, Outcome.bind_unit_eq_ok, Outcome.forM_eq_ok, Declaration.check_eq_ok]

theorem checkProcedure_eq_ok {q : Procedure} :
    (p.checkProcedure q).result = .ok () ↔
      ∀ body, q.body? = some body → (p.context q).WellTyped body := by
  rw [checkProcedure_eq_pass, Procedure.pass_eq_ok]
  simp only [Typing.Context.checkStatement_eq_ok]

theorem checkProcedures_eq_ok {qs : List Procedure} :
    (p.checkProcedures qs).result = .ok () ↔ ∀ q ∈ qs, (p.checkProcedure q).result = .ok () := by
  rw [checkProcedures_eq_all, Pass.all_eq_ok]

theorem checkProcedures_tree_of_ok {qs : List Procedure}
    (h : (p.checkProcedures qs).result = .ok ()) :
    (p.checkProcedures qs).tree = qs.map fun q => (p.checkProcedure q).tree := by
  rw [checkProcedures_eq_all] at h ⊢
  exact Pass.all_tree_of_ok h

theorem check_eq_ok : (∃ ws, p.check.result = .ok ws) ↔ p.WellTyped := by
  have hsplit : (∃ ws, p.check.result = .ok ws) ↔
      p.checkDeclarations = .ok () ∧ (p.checkProcedures p.procedures).result = .ok () := by
    unfold check
    cases p.checkDeclarations with
    | error fault => simp [Pass.stop]
    | ok _ =>
      cases hres : (p.checkProcedures p.procedures).result with
      | error fault => simp [hres, Except.map]
      | ok _ => simp [hres, Except.map]
  rw [hsplit, checkDeclarations_eq_ok, checkProcedures_eq_ok]
  simp only [checkProcedure_eq_ok, Procedure.checkDeclaration_eq_ok]
  constructor
  · rintro ⟨⟨hglobals, hdecls⟩, hbodies⟩
    exact ⟨hglobals, fun q hq => (hdecls q hq).1, fun q hq => (hdecls q hq).2.2.2,
      fun q hq => (hdecls q hq).2.1, fun q hq => (hdecls q hq).2.2.1, hbodies⟩
  · intro h
    exact ⟨⟨h.globals, fun q hq =>
      ⟨h.parameters q hq, h.etcetera q hq, h.few q hq, h.locals q hq⟩⟩, h.bodies⟩

/-- A check changes a procedure in its body only. -/
theorem redone_checkProcedure (p : Program) (q : Procedure) :
    q.Redone (fun body => ((p.context q).checkStatement body).tree) (p.checkProcedure q).tree :=
  Procedure.redone_pass _ _ q

theorem check_tree_of_wellTyped (h : p.WellTyped) :
    p.check.tree =
      { p with procedures := p.procedures.map fun q => (p.checkProcedure q).tree } := by
  have hd : p.checkDeclarations = .ok () := checkDeclarations_eq_ok.mpr ⟨h.globals, fun q hq =>
    Procedure.checkDeclaration_eq_ok.mpr
      ⟨h.parameters q hq, h.etcetera q hq, h.few q hq, h.locals q hq⟩⟩
  have hb : (p.checkProcedures p.procedures).result = .ok () :=
    checkProcedures_eq_ok.mpr fun q hq => checkProcedure_eq_ok.mpr (h.bodies q hq)
  simp [check, hd, checkProcedures_tree_of_ok hb]

theorem context_check (h : p.WellTyped) (q : Procedure) :
    p.check.tree.context (p.checkProcedure q).tree = p.context q := by
  have hredone := p.redone_checkProcedure q
  have hsig : ∀ q, (p.checkProcedure q).tree.signature = q.signature := fun q =>
    (p.redone_checkProcedure q).signature
  simp [check_tree_of_wellTyped h, context, hredone.returns, hredone.parameters, hredone.locals,
    hsig, Function.comp_def]

/-- Every expression of every body has its type on record. -/
def Recorded (p : Program) : Prop :=
  ∀ q ∈ p.procedures, ∀ body, q.body? = some body → ∀ e ∈ body.parts, (p.context q).Recorded e

/-- Checking keeps the rules, and leaves all types on record. -/
theorem check_tree_wellTyped (h : p.WellTyped) :
    p.check.tree.WellTyped ∧ p.check.tree.Recorded := by
  have hprocs : ∀ {q'}, q' ∈ p.check.tree.procedures →
      ∃ q ∈ p.procedures, (p.checkProcedure q).tree = q' := by
    intro q' hq'
    rw [check_tree_of_wellTyped h] at hq'
    exact List.mem_map.mp hq'
  have hbodies : ∀ q ∈ p.procedures, ∀ body', (p.checkProcedure q).tree.body? = some body' →
      (p.context q).WellTyped body' ∧ ∀ e ∈ body'.parts, (p.context q).Recorded e := by
    intro q hq body' hbody'
    rw [(p.redone_checkProcedure q).body?] at hbody'
    obtain ⟨body, hbody, rfl⟩ := Option.map_eq_some_iff.mp hbody'
    exact Typing.Context.tree_of_wellTyped (h.bodies q hq body hbody)
  refine ⟨⟨?_, ?_, ?_, ?_, ?_, ?_⟩, ?_⟩
  · rw [check_tree_of_wellTyped h]
    exact h.globals
  all_goals
    intro q' hq'
    obtain ⟨q, hq, rfl⟩ := hprocs hq'
    have hredone := p.redone_checkProcedure q
  · rw [hredone.parameters]
    exact h.parameters q hq
  · rw [hredone.locals]
    exact h.locals q hq
  · rw [hredone.parameters, hredone.isExternal]
    exact h.etcetera q hq
  · rw [hredone.parameters, hredone.isExternal]
    exact h.few q hq
  · rw [context_check h]
    exact fun body' hbody' => (hbodies q hq body' hbody').1
  · rw [context_check h]
    exact fun body' hbody' => (hbodies q hq body' hbody').2

theorem clearTypes_check (p : Program) : p.check.tree.clearTypes = p.clearTypes := by
  have hqs : (p.checkProcedures p.procedures).tree.map (Procedure.map Expression.clearTypes) =
      p.procedures.map (Procedure.map Expression.clearTypes) := by
    rw [checkProcedures_eq_all]
    exact Pass.map_all_tree fun q _ =>
      Procedure.map_pass_tree (Typing.Context.map_clearTypes_tree (c := p.context q))
  unfold clearTypes check
  split
  next => rfl
  next => simp [mapExpressions_eq, hqs]

/-- Checking decides the typing rules. It changes the types on record only, and every variable and
operation of what passes has on record the one type that the rules give it, at its own position. -/
theorem check_decides_rules (p : Program) :
    ((∃ ws, p.check.result = .ok ws) ↔ p.WellTyped) ∧ p.check.tree.clearTypes = p.clearTypes ∧
      ∀ ws, p.check.result = .ok ws → p.check.tree.Recorded :=
  ⟨check_eq_ok, clearTypes_check p, fun ws h => (check_tree_wellTyped (check_eq_ok.mp ⟨ws, h⟩)).2⟩

end Program

end ProcLang
