import ProcLang.Proofs.Decoration.Frame
import ProcLang.Proofs.Scoping.Names
import ProcLang.Proofs.Stages

/-! Binding keeps the rules of scope: it refuses a program for the first expression that breaks
them, and gives every other program the meanings that they say. -/
namespace ProcLang

open Grammar Outcome

namespace Program

/-- The expressions of all bodies, each with its procedure: in source order, a parent before its
operands. -/
def occurrences (p : Program) : List (Procedure × Expression) :=
  p.procedures.flatMap fun q => ((q.body?.map Statement.parts).getD []).map fun e => (q, e)

/-- The fault that an expression itself is refused for. -/
inductive Offends (p : Program) (q : Procedure) : Expression → Fault → Prop
  | count {loc : Nat} {token : Token} {s : Token.Sign} {operands : List Expression}
    {known : Option Operator} {type : Option TypeAt} (sign : token.kind = .sign s)
    (none : ∀ op, ¬Operator.Assigned s operands.length op) :
    Offends p q (.operation loc token operands known type)
      (.located token.loc (.operandCount (Arity.ofSign s) token.text operands.length))
  | var {v : Variable} {i : Nat} (denotes : p.Denotes q v.name (some (.procedure i))) :
    Offends p q (.var v) (.located v.loc (.procedureAsVariable v.name))
  | call {loc : Nat} {token : Token} {operands : List Expression} {known : Option Operator}
    {type : Option TypeAt} {storage : Storage} (name : token.kind = .name)
    (denotes : p.Denotes q token.text (some (.var storage))) :
    Offends p q (.operation loc token operands known type)
      (.located token.loc (.variableAsProcedure token.text))

/-- An expression itself has the meaning that the rules give it, and no other. -/
inductive Resolved (p : Program) (q : Procedure) : Expression → Prop
  | literal (l : Literal) : Resolved p q (.literal l)
  | var {v : Variable}
    (denotes : ∀ symbol, p.Denotes q v.name symbol ↔ symbol = v.binding.map .var) :
    Resolved p q (.var v)
  | sign {loc : Nat} {token : Token} {s : Token.Sign} {operands : List Expression}
    {op : Operator} {type : Option TypeAt} (sign : token.kind = .sign s)
    (assigned : Operator.Assigned s operands.length op) :
    Resolved p q (.operation loc token operands (some op) type)
  | call {loc : Nat} {token : Token} {operands : List Expression} {callee : Option Nat}
    {type : Option TypeAt} (name : token.kind = .name)
    (denotes : ∀ symbol, p.Denotes q token.text symbol ↔ symbol = callee.map .procedure) :
    Resolved p q (.operation loc token operands (some (.call callee)) type)

end Program

theorem Grammar.kind_of_expr {ts rest : List Token} {loc : Nat} {token : Token}
    {es : List Expression} {known : Option Operator} {type : Option TypeAt}
    (h : Expr ts (.operation loc token es known type) rest) :
    known = none ∧ ((∃ s, token.kind = .sign s) ∨ token.kind = .name) := by
  cases h with
  | operation _ hoperator _ _ =>
    refine ⟨rfl, hoperator.imp_left fun hsign => ?_⟩
    cases hkind : token.kind with
    | sign s => exact ⟨s, rfl⟩
    | _ => simp [hkind, Token.Kind.isSign] at hsign

theorem Expression.unbind_of_fresh {e : Expression} (h : ∀ e' ∈ e.parts, e'.Fresh) :
    e.unbind = e := by
  induction e with
  | literal l => rw [unbind]
  | var v =>
    have hv : v.binding = none := h (.var v) (by simp)
    rw [unbind, ← hv]
  | operation loc token es known type ih =>
    obtain rfl : known = none := h _ (self_mem_parts _)
    have hes : es.map unbind = es := by
      refine (List.map_congr_left fun e he => ?_).trans (List.map_id es)
      exact ih e he fun e' he' => h e' (mem_parts_operation.mpr (.inr ⟨e, he, he'⟩))
    rw [unbind, unbindAll_eq_map, hes]

namespace Scope

variable {s : Scope}

/-- What becomes of an expression itself, apart from its operands. -/
def bindNode (s : Scope) : Expression → Except Fault Unit
  | .literal _ => .ok ()
  | .var v => (s.bindVariable v).result
  | .operation _ token operands known _ =>
    (s.bindOperator token operands.length known).result >>= fun _ => .ok ()

theorem bindExpression_result (e : Expression) :
    (s.bindExpression e).result = forM e.parts s.bindNode := by
  induction e with
  | literal l => simp [bindExpression, bindNode]
  | var v =>
    rw [bindExpression, Pass.mapTree_result, Expression.parts_var, List.forM_cons, bindNode]
    cases (s.bindVariable v).result <;> rfl
  | operation loc token es known type ih =>
    have hes : (s.bindOperands es).result = forM (Expression.operandParts es) s.bindNode := by
      rw [bindOperands_eq_all, Pass.all_result, Expression.operandParts_eq_flatMap,
        Outcome.forM_flatMap]
      exact Outcome.forM_congr ih
    rw [bindExpression, Expression.parts, List.forM_cons, bindNode]
    cases (s.bindOperator token es.length known).result with
    | error fault => rfl
    | ok op => exact hes

theorem bindStatement_result (t : Statement) :
    (s.bindStatement t).result = forM t.parts s.bindNode := by
  rw [bindStatement_eq_pass, Statement.pass_result, Statement.parts, ← Statement.map_snd_uses,
    Outcome.forM_flatMap, List.forM_map]
  exact Outcome.forM_congr fun u _ => bindExpression_result u.2

/-- A sign gets its operator from the table of operators alone. -/
theorem bindOperator_sign {token : Token} {sign : Token.Sign} (hkind : token.kind = .sign sign)
    (count : Nat) :
    (s.bindOperator token count none).result = Operator.resolve token count := by
  rcases Operator.resolve_sign hkind count with ⟨op, hop, hassigned⟩ | ⟨hfault, -⟩
  · rw [hop]
    refine Traced.bind_eq_ok.mpr ⟨op, ?_, ?_⟩
    · simp only [resolve, Traced.bind_eq_ok]
      exact ⟨op, hop, (), rfl, rfl⟩
    · cases hassigned <;> rfl
  · rw [hfault]
    refine Traced.bind_eq_error.mpr (.inl ?_)
    exact Traced.bind_eq_error.mpr (.inl hfault)

/-- A name calls whatever it stands for. -/
theorem bindOperator_name {token : Token} (hkind : token.kind = .name) (count : Nat) :
    (s.bindOperator token count none).result =
      (s.callee token).result >>= fun callee => .ok (.call callee) := by
  have hresolve : (resolve token count none).result = .ok (.call none) := by
    simp only [resolve, Traced.bind_eq_ok]
    exact ⟨_, Operator.resolve_name hkind count, (), rfl, rfl⟩
  cases hcallee : (s.callee token).result with
  | error fault =>
    exact Traced.bind_eq_error.mpr (.inr ⟨_, hresolve, Traced.bind_eq_error.mpr (.inl hcallee)⟩)
  | ok callee =>
    exact Traced.bind_eq_ok.mpr ⟨_, hresolve, Traced.bind_eq_ok.mpr ⟨callee, hcallee, rfl⟩⟩

end Scope

namespace Program

variable {p : Program} {q : Procedure}

/-- An expression that was parsed is refused exactly for its offence. -/
theorem bindNode_eq_error (h : p.Tabled) (hq : q ∈ p.procedures) {e : Expression}
    {ts rest : List Token} (he : Expr ts e rest) {fault : Fault} :
    (p.scope q).bindNode e = .error fault ↔ p.Offends q e fault := by
  cases e with
  | literal l =>
    rw [Scope.bindNode]
    constructor
    · intro h
      cases h
    · intro h
      cases h
  | var v =>
    rw [Scope.bindNode, Scope.bindVariable]
    constructor
    · intro hfault
      split at hfault
      next => cases hfault
      next i hlookup =>
        cases hfault
        exact .var ((denotes_iff h hq).mpr hlookup)
      next => cases hfault
    · rintro ⟨⟩
      rename_i i denotes
      rw [(denotes_iff h hq).mp denotes]
      rfl
  | operation loc token es known type =>
    obtain ⟨rfl, hkind⟩ := kind_of_expr he
    rw [Scope.bindNode]
    rcases hkind with ⟨sign, hkind⟩ | hkind
    · rw [Scope.bindOperator_sign hkind]
      rcases Operator.resolve_sign hkind es.length with ⟨op, hop, hassigned⟩ | ⟨hcount, hnone⟩
      · rw [hop]
        constructor
        · intro hfault
          cases hfault
        · intro hoffends
          cases hoffends with
          | count hsign none =>
            cases hkind.symm.trans hsign
            exact absurd hassigned (none op)
          | call hname _ => cases hkind.symm.trans hname
      · rw [hcount]
        constructor
        · intro hfault
          cases hfault
          exact .count hkind hnone
        · intro hoffends
          cases hoffends with
          | count hsign none =>
            cases hkind.symm.trans hsign
            rfl
          | call hname _ => cases hkind.symm.trans hname
    · rw [Scope.bindOperator_name hkind, Scope.callee]
      constructor
      · intro hfault
        split at hfault
        next => cases hfault
        next storage hlookup =>
          cases hfault
          exact .call hkind ((denotes_iff h hq).mpr hlookup)
        next => cases hfault
      · intro hoffends
        cases hoffends with
        | count hsign _ => cases hkind.symm.trans hsign
        | call _ denotes =>
          rw [(denotes_iff h hq).mp denotes]
          rfl

theorem resolved_of_bindExpression (h : p.Tabled) (hq : q ∈ p.procedures) {e : Expression}
    {ts rest : List Token} (he : Expr ts e rest)
    (hok : ((p.scope q).bindExpression e).result = .ok ()) :
    p.Resolved q ((p.scope q).bindExpression e).tree := by
  cases e with
  | literal l =>
    rw [Scope.bindExpression]
    exact .literal l
  | var v =>
    have hv : v.binding = none := fresh_of_expr he
    rw [Scope.bindExpression, Pass.mapTree_result] at hok
    rw [Scope.bindExpression, Pass.mapTree_tree]
    cases hlookup : (p.scope q).lookup v.name with
    | none =>
      refine .var fun symbol => ?_
      rw [Scope.bindVariable, hlookup]
      rw [denotes_iff h hq, hlookup, hv, eq_comm]
      rfl
    | some symbol =>
      cases symbol with
      | var storage =>
        refine .var fun symbol => ?_
        rw [Scope.bindVariable, hlookup]
        rw [denotes_iff h hq, hlookup, eq_comm]
        rfl
      | procedure i => 
        rw [Scope.bindVariable, hlookup] at hok
        cases hok
  | operation loc token es known type =>
    obtain ⟨rfl, hkind⟩ := kind_of_expr he
    rw [Scope.bindExpression] at hok ⊢
    cases hop : ((p.scope q).bindOperator token es.length none).result with
    | error fault => simp [hop] at hok
    | ok op =>
      simp only [hop] at hok ⊢
      have hlength : ((p.scope q).bindOperands es).tree.length = es.length := by
        rw [Scope.bindOperands_tree_of_ok hok, List.length_map]
      rcases hkind with ⟨sign, hkind⟩ | hkind
      · rw [Scope.bindOperator_sign hkind] at hop
        rcases Operator.resolve_sign hkind es.length with ⟨op', hop', hassigned⟩ | ⟨hcount, -⟩
        · cases hop.symm.trans hop'
          exact .sign hkind (hlength.symm ▸ hassigned)
        · cases hop.symm.trans hcount
      · rw [Scope.bindOperator_name hkind] at hop
        obtain ⟨callee, hcallee, hop⟩ := bind_eq_ok.mp hop
        cases hop
        refine .call hkind fun symbol => ?_
        rw [denotes_iff h hq]
        unfold Scope.callee at hcallee
        split at hcallee
        next i hlookup =>
          cases hcallee
          rw [hlookup, eq_comm]
          rfl
        next => cases hcallee
        next hlookup =>
          cases hcallee
          rw [hlookup, eq_comm]
          rfl

/-- A program is bound by binding its expressions in source order. -/
theorem bind_result (p : Program) :
    p.bind.result = forM p.occurrences fun o => (p.scope o.1).bindNode o.2 := by
  rw [bind, Pass.mapTree_result, bindProcedures_eq_all, Pass.all_result, occurrences,
    Outcome.forM_flatMap]
  refine Outcome.forM_congr fun q _ => ?_
  rw [List.forM_map]
  unfold bindProcedure Procedure.body?
  cases q.implementation with
  | external => rfl
  | internal locals body => simp [Scope.bindStatement_result]

theorem mem_occurrences {e : Expression} :
    (q, e) ∈ p.occurrences ↔
      q ∈ p.procedures ∧ ∃ body, q.body? = some body ∧ e ∈ body.parts := by
  unfold occurrences
  simp only [List.mem_flatMap, List.mem_map, Prod.mk.injEq]
  constructor
  · rintro ⟨q, hq, e, he, rfl, rfl⟩
    cases hbody : q.body? with
    | none => simp [hbody] at he
    | some body => exact ⟨hq, body, rfl, by simpa [hbody] using he⟩
  · rintro ⟨hq, body, hbody, he⟩
    exact ⟨q, hq, e, by simpa [hbody] using he, rfl, rfl⟩

/-- Names mean the same among the same declarations. -/
theorem Denotes.congr {p' : Program} {q' : Procedure} {name : String} {symbol : Option Symbol}
    (h : p.Denotes q name symbol) (hglobals : p'.globals = p.globals)
    (hnames : p'.procedures.map Procedure.name = p.procedures.map Procedure.name)
    (hparameters : q'.parameters = q.parameters) (hlocals : q'.locals = q.locals) :
    p'.Denotes q' name symbol := by
  have hdeclares : q'.Declares name ↔ q.Declares name := by
    unfold Procedure.Declares
    rw [hparameters, hlocals]
  cases h with
  | parameter declared named => exact .parameter (hparameters ▸ declared) named
  | localVar declared named => exact .localVar (hlocals ▸ declared) named
  | global own declared named =>
    exact .global (mt hdeclares.mp own) (hglobals ▸ declared) named
  | @procedure i r own globals declared named =>
    have hname : (p'.procedures.map Procedure.name)[i]? = some name := by
      rw [hnames, List.getElem?_map, declared, Option.map_some, named]
    rw [List.getElem?_map] at hname
    obtain ⟨r', declared', named'⟩ := Option.map_eq_some_iff.mp hname
    exact .procedure (mt hdeclares.mp own) (hglobals ▸ globals) declared' named'
  | nothing own globals procedures =>
    refine .nothing (mt hdeclares.mp own) (hglobals ▸ globals) fun r hr hname => ?_
    have hmem : r.name ∈ p.procedures.map Procedure.name := hnames ▸ List.mem_map_of_mem hr
    obtain ⟨r', hr', heq⟩ := List.mem_map.mp hmem
    exact procedures r' hr' (heq.trans hname)

theorem Resolved.congr {p' : Program} {q' : Procedure} {e : Expression} (h : p.Resolved q e)
    (hglobals : p'.globals = p.globals)
    (hnames : p'.procedures.map Procedure.name = p.procedures.map Procedure.name)
    (hparameters : q'.parameters = q.parameters) (hlocals : q'.locals = q.locals) :
    p'.Resolved q' e := by
  have hdenotes : ∀ name symbol, p'.Denotes q' name symbol ↔ p.Denotes q name symbol :=
    fun name symbol =>
      ⟨fun h => h.congr hglobals.symm hnames.symm hparameters.symm hlocals.symm,
        fun h => h.congr hglobals hnames hparameters hlocals⟩
  cases h with
  | literal l => exact .literal l
  | var denotes => exact .var fun symbol => (hdenotes _ symbol).trans (denotes symbol)
  | sign hsign assigned => exact .sign hsign assigned
  | call hname denotes => exact .call hname fun symbol => (hdenotes _ symbol).trans (denotes symbol)

section

variable {ts : List Token}

theorem derivedIn_of_occurrence (h : Derives ts p) {e : Expression} (ho : (q, e) ∈ p.occurrences) :
    q ∈ p.procedures ∧ DerivedIn ts e := by
  obtain ⟨hq, body, hbody, he⟩ := mem_occurrences.mp ho
  exact ⟨hq, derivedIn_of_derives h hq hbody he⟩

theorem occurrence_eq_error (h : Derives ts p) {e : Expression} (ho : (q, e) ∈ p.occurrences)
    {fault : Fault} : (p.scope q).bindNode e = .error fault ↔ p.Offends q e fault := by
  obtain ⟨hq, _, _, -, hexpr⟩ := derivedIn_of_occurrence h ho
  exact bindNode_eq_error (tabled_of_derives h) hq hexpr

theorem occurrence_eq_ok (h : Derives ts p) {e : Expression} (ho : (q, e) ∈ p.occurrences) :
    (p.scope q).bindNode e = .ok () ↔ ∀ fault, ¬p.Offends q e fault := by
  simp only [← occurrence_eq_error h ho]
  cases (p.scope q).bindNode e with
  | error fault => simp
  | ok _ => simp

theorem bind_succeeds_iff (h : Derives ts p) :
    p.bind.result = .ok () ↔ ∀ q e, (q, e) ∈ p.occurrences → ∀ fault, ¬p.Offends q e fault := by
  rw [bind_result, forM_eq_ok, Prod.forall]
  exact forall₃_congr fun q e ho => occurrence_eq_ok h ho

theorem bind_fails_iff (h : Derives ts p) {fault : Fault} :
    p.bind.result = .error fault ↔
      ∃ before q e after, p.occurrences = before ++ (q, e) :: after ∧
        (∀ q' e', (q', e') ∈ before → ∀ fault', ¬p.Offends q' e' fault') ∧
        p.Offends q e fault := by
  rw [bind_result, forM_eq_error]
  simp only [Prod.exists, Prod.forall]
  refine exists_congr fun before => exists₃_congr fun q e after => and_congr_right fun heq => ?_
  have hbefore : ∀ o ∈ before, o ∈ p.occurrences := by
    intro o ho
    rw [heq]
    exact List.mem_append_left _ ho
  have hmem : (q, e) ∈ p.occurrences := by simp [heq]
  exact and_congr (forall₃_congr fun q' e' ho => occurrence_eq_ok h (hbefore _ ho))
    (occurrence_eq_error h hmem)

/-- What is derived is not decided on, so there is nothing to undo. -/
theorem unbind_of_derives (h : Derives ts p) : p.mapExpressions Expression.unbind = p := by
  have hqs : ∀ q ∈ p.procedures, q.map Expression.unbind = q := by
    intro q hq
    cases himpl : q.implementation with
    | external => exact Procedure.map_of_external _ himpl
    | internal locals body =>
      have hbody : q.body? = some body := by simp [Procedure.body?, himpl]
      have hself : ∀ e ∈ body.expressions, e.unbind = id e := by
        intro e he
        refine Expression.unbind_of_fresh fun e' he' => ?_
        obtain ⟨_, _, -, hexpr⟩ :=
          derivedIn_of_derives h hq hbody (Statement.mem_parts.mpr ⟨e, he, he'⟩)
        exact fresh_of_expr hexpr
      rw [Procedure.map_of_internal _ himpl, Statement.map_congr hself, Statement.map_id, ← himpl]
  rw [mapExpressions_eq, (List.map_congr_left hqs).trans (List.map_id _)]

theorem resolved_of_bind (h : Derives ts p) (hok : p.bind.result = .ok ()) {q' : Procedure}
    {e' : Expression} (ho : (q', e') ∈ p.bind.tree.occurrences) : p.bind.tree.Resolved q' e' := by
  obtain ⟨hq', body', hbody', he'⟩ := mem_occurrences.mp ho
  obtain ⟨q, hq, rfl, body, hbody, e, he, hbound, rfl⟩ := mem_parts_bind hok hq' hbody' he'
  obtain ⟨_, _, -, hexpr⟩ := derivedIn_of_derives h hq hbody he
  obtain ⟨hnames, hglobals⟩ := names_bind hok
  have hredone := p.redone_bindProcedure q
  exact (resolved_of_bindExpression (tabled_of_derives h) hq hexpr hbound).congr hglobals hnames
    hredone.parameters hredone.locals

end

/-- Binding follows the rules of scope. It succeeds if no expression breaks them, and fails with
the fault of the first one that does. What it binds it changes in nothing else, and gives the
meanings that the rules say. -/
theorem bind_follows_scope {eof : Nat} {tokens : List Token} {p : Program}
    (h : (parse eof tokens).result = .ok p) :
    (p.bind.result = .ok () ↔ ∀ q e, (q, e) ∈ p.occurrences → ∀ fault, ¬p.Offends q e fault) ∧
      (p.bind.result = .ok () → p.bind.tree.mapExpressions Expression.unbind = p ∧
        ∀ q e, (q, e) ∈ p.bind.tree.occurrences → p.bind.tree.Resolved q e) ∧
      ∀ fault, p.bind.result = .error fault ↔
        ∃ before q e after, p.occurrences = before ++ (q, e) :: after ∧
          (∀ q' e', (q', e') ∈ before → ∀ fault', ¬p.Offends q' e' fault') ∧
          p.Offends q e fault := by
  have hderives := derives_of_parse h
  exact ⟨bind_succeeds_iff hderives, fun hok => ⟨(unbind_bind p).trans (unbind_of_derives hderives),
    fun q e => resolved_of_bind hderives hok⟩, fun fault => bind_fails_iff hderives⟩

namespace Clash

/-- `[int f] proc void g(int a) (f (+ a))`, in which `f` is no procedure and one addend is too
few. -/
def tokens : List Token :=
  [.fixed (.delimiter .openBracket) 0, ⟨.name, "int", 1⟩, ⟨.name, "f", 5⟩,
    .fixed (.delimiter .closeBracket) 6, .fixed (.keyword .proc) 8, ⟨.name, "void", 13⟩,
    ⟨.name, "g", 18⟩, .fixed (.delimiter .openParen) 19, ⟨.name, "int", 20⟩, ⟨.name, "a", 24⟩,
    .fixed (.delimiter .closeParen) 25, .fixed (.delimiter .openParen) 27, ⟨.name, "f", 28⟩,
    .fixed (.delimiter .openParen) 30, ⟨.sign .plus, "+", 31⟩, ⟨.name, "a", 33⟩,
    .fixed (.delimiter .closeParen) 34, .fixed (.delimiter .closeParen) 35]

def sum : Expression :=
  .operation 30 ⟨.sign .plus, "+", 31⟩ [.var ⟨"a", 33, none, none⟩] none none

def procedure : Procedure :=
  ⟨"g", 18, .void 13, [.var ⟨"a", .int 20, 24⟩],
    .internal [] (.expression (.operation 27 ⟨.name, "f", 28⟩ [sum] none none)),
    [("a", .var (.parameter 0))]⟩

def program : Program :=
  ⟨[⟨"f", .int 1, 5⟩], [procedure], [("f", .var (.global 0))], [("g", .procedure 0)]⟩

end Clash

open Clash in
/-- The call is the first of the two mistakes, and so the one that is found. -/
theorem bind_follows_scope_clash : (parse 36 tokens).result = .ok program ∧
    program.bind.result = .error (.located 28 (.variableAsProcedure "f")) := by
  have hparse : (parse 36 tokens).result = .ok program := by decide +kernel
  refine ⟨hparse, ((bind_follows_scope hparse).2.2 _).mpr ?_⟩
  have hglobal : program.Denotes procedure "f" (some (.var (.global 0))) := by
    refine .global ?_ rfl rfl
    simp [Procedure.Declares, procedure, Procedure.locals]
  exact ⟨[], procedure, _, _, rfl, by simp, .call rfl hglobal⟩

end Program

end ProcLang
