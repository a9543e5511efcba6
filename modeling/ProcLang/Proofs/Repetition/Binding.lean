import ProcLang.Proofs.Binding

/-! Binding a program that binding has been over before, whether it ended well or not. -/
namespace ProcLang

/-- A second run over what the first one leaves ends like the first, and leaves the same. -/
structure Pass.Repeats (f : τ → Pass τ α) (t : τ) : Prop where
  tree : (f (f t).tree).tree = (f t).tree
  result : (f (f t).tree).result = (f t).result

namespace Pass.Repeats

variable {f : τ → Pass τ α} {t : τ}

theorem mapTree {F : τ → σ} {h : σ → Pass σ α} (hF : ∀ t, h (F t) = (f t).mapTree F)
    (hf : Repeats f t) : Repeats h (F t) := by
  constructor
  · rw [hF, mapTree_tree, hF, mapTree_tree, hf.tree]
  · rw [hF, mapTree_tree, hF, mapTree_result, mapTree_result, hf.result]

/-- The second pass is repeated only if the first one ends well, and it does so both times. -/
theorem andThen {g : α → σ → Pass σ β} {u : σ} (hf : Repeats f t)
    (hg : ∀ a, (f t).result = .ok a → Repeats (g a) u) :
    Repeats (fun v : τ × σ => (f v.1).andThen v.2 fun a => g a v.2) (t, u) := by
  cases h : (f t).result with
  | error fault =>
    have h' : (f (f t).tree).result = .error fault := hf.result.trans h
    constructor <;> simp [Pass.andThen, h, h', hf.tree]
  | ok a =>
    have h' : (f (f t).tree).result = .ok a := hf.result.trans h
    have hga := hg a h
    constructor <;> simp [Pass.andThen, h, h', hf.tree, hga.tree, hga.result]

theorem require (check : τ → α → Except Fault β) (hf : Repeats f t)
    (hcheck : check (f t).tree = check t) : Repeats (fun t => (f t).require (check t)) t := by
  constructor
  · exact hf.tree
  · show (f (f t).tree).result.bind (check (f t).tree) = (f t).result.bind (check t)
    rw [hf.result, hcheck]

theorem all {f : τ → Pass τ Unit} {ts : List τ} (h : ∀ t ∈ ts, Repeats f t) :
    Repeats (Pass.all f) ts := by
  induction ts with
  | nil => constructor <;> rfl
  | cons t ts ih =>
    obtain ⟨ht, hts⟩ := List.forall_mem_cons.mp h
    exact (ht.andThen fun _ _ => ih hts).mapTree (F := fun v => v.1 :: v.2) (h := Pass.all f)
      fun _ => rfl

end Pass.Repeats

/-- A pass over a statement may be repeated if each of its visits may. -/
theorem Statement.repeats_pass {visit : Role → Expression → Pass Expression Unit}
    (h : ∀ role e, Pass.Repeats (visit role) e) (s : Statement) :
    Pass.Repeats (pass visit) s := by
  induction s with
  | block loc body ih => exact (Pass.Repeats.all ih).mapTree (pass_block loc)
  | ifThen loc condition yes ih =>
    exact ((h .condition condition).andThen fun _ _ => ih).mapTree
      (F := fun v => ifThen loc v.1 v.2) (h := pass visit) fun _ => by rw [pass]
  | ifThenElse loc condition yes no ihy ihn =>
    exact ((h .condition condition).andThen fun _ _ => ihy.andThen fun _ _ => ihn).mapTree
      (F := fun v => ifThenElse loc v.1 v.2.1 v.2.2) (h := pass visit) fun _ => by rw [pass]
  | loop loc condition body ih =>
    exact ((h .condition condition).andThen fun _ _ => ih).mapTree
      (F := fun v => loop loc v.1 v.2) (h := pass visit) fun _ => by rw [pass]
  | ret loc value =>
    cases value with
    | none => constructor <;> simp [pass]
    | some e =>
      exact (h (.returned loc) e).mapTree (F := fun e => ret loc (some e)) fun _ => by rw [pass]
  | expression e => exact (h .value e).mapTree fun _ => by rw [pass]

/-- What is known of a procedure outside its body is the same in a second run. -/
theorem Procedure.repeats_pass {visit : Procedure → Statement → Pass Statement Unit}
    {event : Procedure → Event} {q : Procedure}
    (hvisit : ∀ redo q', q.Redone redo q' → visit q' = visit q)
    (h : ∀ body, Pass.Repeats (visit q) body) :
    Pass.Repeats (fun q => q.pass (visit q) (event q)) q := by
  have hsame := hvisit _ _ (q.redone_pass (visit q) (event q))
  cases himpl : q.implementation with
  | external => constructor <;> simp [pass, himpl]
  | internal locals body =>
    have hbody := h body
    constructor
    · simp only [hsame]
      simp [pass, himpl, hbody.tree]
    · simp only [hsame]
      simp [pass, himpl, hbody.result]

namespace Scope

variable {s : Scope}

/-- An operator that was chosen is kept, and so is the callee of a call that was looked up. -/
theorem bindOperator_again {token : Token} {count : Nat} {known : Option Operator} {op : Operator}
    (h : (s.bindOperator token count known).result = .ok op) (count' : Nat) :
    (s.bindOperator token count' (some op)).result = .ok op := by
  obtain ⟨chosen, -, h⟩ := Traced.bind_eq_ok.mp h
  refine Traced.bind_eq_ok.mpr ⟨op, rfl, ?_⟩
  split at h
  next =>
    obtain ⟨index, hindex, h⟩ := Traced.bind_eq_ok.mp h
    cases h
    cases index with
    | none => exact Traced.bind_eq_ok.mpr ⟨none, hindex, rfl⟩
    | some index => rfl
  next hopen =>
    cases h
    split
    next => exact absurd rfl hopen
    next => rfl

theorem repeats_bindVariable (v : Variable) : Pass.Repeats s.bindVariable v := by
  cases h : s.lookup v.name with
  | none => constructor <;> simp [bindVariable, h]
  | some symbol =>
    cases symbol with
    | var storage => constructor <;> simp [bindVariable, h]
    | procedure index => constructor <;> simp [bindVariable, h, Pass.stop]

theorem repeats_bindExpression (e : Expression) : Pass.Repeats s.bindExpression e := by
  induction e with
  | literal l => constructor <;> simp [bindExpression]
  | var v => exact (repeats_bindVariable v).mapTree fun _ => by rw [bindExpression]
  | operation loc token es known type ih =>
    cases hop : (s.bindOperator token es.length known).result with
    | error fault => constructor <;> simp [bindExpression, hop]
    | ok op =>
      have hes : Pass.Repeats s.bindOperands es := by
        rw [bindOperands_eq_all]
        exact Pass.Repeats.all ih
      have hagain := bindOperator_again hop
      constructor
      · simp [bindExpression, hop, hagain, hes.tree]
      · simp [bindExpression, hop, hagain, hes.result]

theorem repeats_bindStatement (t : Statement) : Pass.Repeats s.bindStatement t := by
  rw [bindStatement_eq_pass]
  exact Statement.repeats_pass (fun _ => repeats_bindExpression) t

/-- Binding has nothing left to do with an expression. -/
def Settled (s : Scope) (e : Expression) : Prop :=
  (s.bindExpression e).result = .ok () ∧ (s.bindExpression e).tree = e

theorem settled_var {v : Variable} :
    s.Settled (.var v) ↔ s.lookup v.name = none ∨
      ∃ storage, s.lookup v.name = some (.var storage) ∧ v.binding = some storage := by
  unfold Settled
  rw [bindExpression, Pass.mapTree_result, Pass.mapTree_tree, bindVariable]
  cases h : s.lookup v.name with
  | none => simp
  | some symbol =>
    cases symbol with
    | procedure index => simp [Pass.stop]
    | var storage =>
      obtain ⟨name, loc, binding, type⟩ := v
      simp [eq_comm]

theorem settled_operation {loc : Nat} {token : Token} {es : List Expression}
    {known : Option Operator} {type : Option TypeAt} :
    s.Settled (.operation loc token es known type) ↔
      (∃ op, known = some op ∧ (s.bindOperator token es.length known).result = .ok op) ∧
        ∀ e ∈ es, s.Settled e := by
  unfold Settled
  rw [bindExpression]
  cases hop : (s.bindOperator token es.length known).result with
  | error fault => simp
  | ok op =>
    simp only [Expression.operation.injEq, true_and, and_true, Except.ok.injEq]
    constructor
    · rintro ⟨hok, htree, rfl⟩
      rw [bindOperands_tree_of_ok hok] at htree
      have hall := bindOperands_eq_ok.mp hok
      have hself := List.map_inj_left.mp (htree.trans (List.map_id es).symm)
      exact ⟨⟨op, rfl, rfl⟩, fun e he => ⟨hall e he, hself e he⟩⟩
    · rintro ⟨⟨_, rfl, rfl⟩, hall⟩
      have hok := bindOperands_eq_ok.mpr fun e he => (hall e he).1
      refine ⟨hok, ?_, rfl⟩
      rw [bindOperands_tree_of_ok hok]
      exact (List.map_congr_left fun e he => (hall e he).2).trans (List.map_id es)

/-- Types on record have no part in binding. -/
theorem Settled.of_clearTypes {e e' : Expression} (h : s.Settled e)
    (hclear : e'.clearTypes = e.clearTypes) : s.Settled e' := by
  induction e generalizing e' with
  | literal l =>
    cases e' with
    | literal l' => exact ⟨by simp [bindExpression], by simp [bindExpression]⟩
    | _ => cases hclear
  | var v =>
    cases e' with
    | var v' =>
      simp only [Expression.clearTypes, Expression.var.injEq, Variable.mk.injEq] at hclear
      obtain ⟨hname, -, hbinding, -⟩ := hclear
      rw [settled_var] at h ⊢
      rwa [hname, hbinding]
    | _ => cases hclear
  | operation loc token es known type ih =>
    cases e' with
    | operation loc' token' es' known' type' =>
      simp only [Expression.clearTypes, Expression.operation.injEq,
        Expression.clearAllTypes_eq_map] at hclear
      obtain ⟨rfl, rfl, hes, rfl, -⟩ := hclear
      have hlength : es'.length = es.length := by simpa using congrArg List.length hes
      obtain ⟨hop, hall⟩ := settled_operation.mp h
      refine settled_operation.mpr ⟨hlength ▸ hop, fun e' he' => ?_⟩
      have hmem : e'.clearTypes ∈ es.map Expression.clearTypes :=
        hes ▸ List.mem_map_of_mem he'
      obtain ⟨e, he, heq⟩ := List.mem_map.mp hmem
      exact ih e he (hall e he) heq.symm
    | _ => cases hclear

theorem settled_statement {t : Statement} :
    (s.bindStatement t).result = .ok () ∧ (s.bindStatement t).tree = t ↔
      ∀ e ∈ t.expressions, s.Settled e := by
  constructor
  · rintro ⟨hok, htree⟩ e he
    obtain ⟨hmap, hall⟩ := bindStatement_of_ok hok
    have hself : t.expressions.map (fun e => (s.bindExpression e).tree) = t.expressions.map id := by
      rw [← Statement.expressions_map, ← hmap, htree, List.map_id]
    exact ⟨hall e he, List.map_inj_left.mp hself e he⟩
  · intro hall
    have hok := bindStatement_eq_ok.mpr fun e he => (hall e he).1
    refine ⟨hok, ?_⟩
    rw [bindStatement_tree_of_ok hok, Statement.map_congr fun e he => (hall e he).2]
    exact t.map_id

end Scope

namespace Program

theorem repeats_bindProcedure (p : Program) (q : Procedure) :
    Pass.Repeats p.bindProcedure q := by
  change Pass.Repeats (fun q => q.pass (p.scope q).bindStatement (.boundProcedure q.name)) q
  refine Procedure.repeats_pass (fun redo q' hq' => ?_) Scope.repeats_bindStatement
  rw [scope, scope, hq'.symbols]

theorem repeats_bindProcedures (p : Program) (qs : List Procedure) :
    Pass.Repeats p.bindProcedures qs := by
  rw [bindProcedures_eq_all]
  exact Pass.Repeats.all fun q _ => p.repeats_bindProcedure q

/-- Other procedures leave the tables of names as they are. -/
theorem bindProcedures_update (p : Program) (procedures qs : List Procedure) :
    { p with procedures := procedures }.bindProcedures qs = p.bindProcedures qs := by
  rw [bindProcedures_eq_all, bindProcedures_eq_all]
  exact Pass.all_congr fun _ _ => rfl

theorem repeats_bind (p : Program) : Pass.Repeats bind p := by
  have hqs := p.repeats_bindProcedures p.procedures
  constructor
  · simp [bind, bindProcedures_update, hqs.tree]
  · simp [bind, bindProcedures_update, hqs.result]

/-- Binding has nothing left to do with a program. -/
def Settled (p : Program) : Prop :=
  p.bind.result = .ok () ∧ p.bind.tree = p

theorem settled_procedure {p : Program} {q : Procedure} :
    (p.bindProcedure q).result = .ok () ∧ (p.bindProcedure q).tree = q ↔
      ∀ body, q.body? = some body → ∀ e ∈ body.expressions, (p.scope q).Settled e := by
  cases h : q.implementation with
  | external => simp [bindProcedure, Procedure.body?, h]
  | internal locals body =>
    have hbody := Scope.settled_statement (s := p.scope q) (t := body)
    obtain ⟨name, loc, returns, parameters, implementation, symbols⟩ := q
    subst h
    simpa [bindProcedure, Procedure.body?] using hbody

theorem settled_iff {p : Program} :
    p.Settled ↔ ∀ q ∈ p.procedures, ∀ body, q.body? = some body → ∀ e ∈ body.expressions,
      (p.scope q).Settled e := by
  simp only [← settled_procedure]
  constructor
  · rintro ⟨hok, htree⟩ q hq
    have hall := bindProcedures_eq_ok.mp hok
    have hself : p.procedures.map (fun q => (p.bindProcedure q).tree) = p.procedures.map id := by
      rw [← bindProcedures_tree_of_ok hok, List.map_id]
      exact congrArg procedures htree
    exact ⟨hall q hq, List.map_inj_left.mp hself q hq⟩
  · intro hall
    have hok := bindProcedures_eq_ok.mpr fun q hq => (hall q hq).1
    have hself : p.procedures.map (fun q => (p.bindProcedure q).tree) = p.procedures :=
      (List.map_congr_left fun q hq => (hall q hq).2).trans (List.map_id _)
    refine ⟨hok, ?_⟩
    rw [bind, Pass.mapTree_tree, bindProcedures_tree_of_ok hok, hself]

/-- A program that differs in types only is settled with it. -/
theorem Settled.of_clearTypes {p p' : Program} (h : p.Settled)
    (hclear : p'.clearTypes = p.clearTypes) : p'.Settled := by
  simp only [clearTypes, mapExpressions_eq, mk.injEq] at hclear
  obtain ⟨-, hqs, hglobals, hprocedures⟩ := hclear
  refine settled_iff.mpr fun q' hq' body' hbody' e' he' => ?_
  have hmem : q'.map Expression.clearTypes ∈
      p.procedures.map (Procedure.map Expression.clearTypes) :=
    hqs ▸ List.mem_map_of_mem hq'
  obtain ⟨q, hq, heq⟩ := List.mem_map.mp hmem
  have hscope : p'.scope q' = p.scope q := by
    have hsymbols : q.symbols = q'.symbols := by
      rw [← (q.redone_map Expression.clearTypes).symbols, heq]
      exact (q'.redone_map Expression.clearTypes).symbols
    rw [scope, scope, hglobals, hprocedures, hsymbols]
  have hbodies : (q.body?).map (Statement.map Expression.clearTypes) =
      some (body'.map Expression.clearTypes) := by
    rw [← q.body?_map, heq, q'.body?_map, hbody']
    rfl
  obtain ⟨body, hbody, hbodies⟩ := Option.map_eq_some_iff.mp hbodies
  have hmem : e'.clearTypes ∈ body.expressions.map Expression.clearTypes := by
    rw [← Statement.expressions_map, hbodies, Statement.expressions_map]
    exact List.mem_map_of_mem he'
  obtain ⟨e, he, hclear⟩ := List.mem_map.mp hmem
  rw [hscope]
  exact (settled_iff.mp h q hq body hbody e he).of_clearTypes hclear.symm

end Program

end ProcLang
