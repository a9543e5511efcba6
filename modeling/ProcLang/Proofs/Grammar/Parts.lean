import ProcLang.Proofs.Grammar.Relation
import ProcLang.Proofs.Tree

/-! What is derived leaves over some of its tokens, in their order. The parts of what is derived
begin among its tokens, in their order, and every literal token is one of them. -/
namespace ProcLang.Grammar

variable {ts rest : List Token}

/-- The kinds of tokens that are literals by themselves. -/
def isLiteralKind : Token.Kind → Bool
  | .integer | .character | .boolean | .text => true
  | _ => false

/-- `Skips ts rest`: before `rest` stand tokens that are no literals. -/
def Skips (ts rest : List Token) : Prop :=
  ∃ skipped, ts = skipped ++ rest ∧ ∀ t ∈ skipped, isLiteralKind t.kind = false

namespace Skips

variable {mid : List Token}

theorem refl (ts : List Token) : Skips ts ts :=
  ⟨[], rfl, by simp⟩

theorem cons {t : Token} (ht : isLiteralKind t.kind = false) (h : Skips ts rest) :
    Skips (t :: ts) rest := by
  obtain ⟨skipped, rfl, hskipped⟩ := h
  exact ⟨t :: skipped, rfl, List.forall_mem_cons.mpr ⟨ht, hskipped⟩⟩

theorem trans (h : Skips ts mid) (h' : Skips mid rest) : Skips ts rest := by
  obtain ⟨skipped, rfl, hskipped⟩ := h
  obtain ⟨skipped', rfl, hskipped'⟩ := h'
  exact ⟨skipped ++ skipped', (List.append_assoc ..).symm,
    List.forall_mem_append.mpr ⟨hskipped, hskipped'⟩⟩

theorem sublist (h : Skips ts rest) : rest.Sublist ts := by
  obtain ⟨skipped, rfl, -⟩ := h
  exact List.sublist_append_right skipped rest

end Skips

theorem skips_of_stars {base type : TypeAt} (h : Stars base ts type rest) : Skips ts rest := by
  induction h with
  | none => exact .refl _
  | more hstar _ ih => exact .cons (by rw [hstar]; rfl) ih

theorem skips_of_typeName {type : TypeAt} (h : TypeName ts type rest) : Skips ts rest := by
  cases h with
  | intro hbase hstars =>
    refine .cons ?_ (skips_of_stars hstars)
    cases hbase <;> simp [isLiteralKind, *]

theorem skips_of_decl {d : Declaration} (h : Decl ts d rest) : Skips ts rest := by
  cases h with
  | intro htype hname =>
    exact (skips_of_typeName htype).trans (.cons (by rw [hname]; rfl) (.refl _))

theorem skips_of_param {p : Parameter} (h : Param ts p rest) : Skips ts rest := by
  cases h with
  | var hd => exact skips_of_decl hd
  | etcetera hword => exact .cons (by rw [hword]; rfl) (.refl _)

theorem skips_of_closed {item : List Token → α → List Token → Prop} {close : Token.Kind}
    (hitem : ∀ {ts a rest}, item ts a rest → Skips ts rest) (hclose : isLiteralKind close = false)
    {as : List α} (h : Closed item close ts as rest) : Skips ts rest := by
  cases h with
  | empty hclosing => exact .cons (by rw [hclosing, hclose]) (.refl _)
  | items hall =>
    induction hall with
    | last hfirst hclosing =>
      exact (hitem hfirst).trans (.cons (by rw [hclosing, hclose]) (.refl _))
    | more hfirst hcomma _ ih =>
      exact (hitem hfirst).trans (.cons (by rw [hcomma]; rfl) ih)

theorem skips_of_params {ps : List Parameter} (h : Params ts ps rest) : Skips ts rest := by
  cases h with
  | intro hopening hinside =>
    exact .cons (by rw [hopening]; rfl) (skips_of_closed skips_of_param rfl hinside)

theorem skips_of_varList {ds : List Declaration} (h : VarList ts ds rest) : Skips ts rest := by
  cases h with
  | absent => exact .refl _
  | present hopening hinside =>
    exact .cons (by rw [hopening]; rfl) (skips_of_closed skips_of_decl rfl hinside)

theorem sublist_of_typeName {type : TypeAt} (h : TypeName ts type rest) : rest.Sublist ts :=
  (skips_of_typeName h).sublist

theorem sublist_of_decl {d : Declaration} (h : Decl ts d rest) : rest.Sublist ts :=
  (skips_of_decl h).sublist

theorem sublist_of_params {ps : List Parameter} (h : Params ts ps rest) : rest.Sublist ts :=
  (skips_of_params h).sublist

theorem sublist_of_varList {ds : List Declaration} (h : VarList ts ds rest) :
    rest.Sublist ts :=
  (skips_of_varList h).sublist

mutual

theorem sublist_of_expr {ts rest : List Token} {e : Expression} :
    Expr ts e rest → rest.Sublist ts
  | .integer .. | .character .. | .boolean .. | .text .. | .var .. => List.sublist_cons_self _ _
  | .size _ _ htype _ _ =>
    (((List.sublist_cons_self _ _).trans (sublist_of_typeName htype)).cons _).cons _
  | .operation _ _ hes _ =>
    (((List.sublist_cons_self _ _).trans (sublist_of_operands hes)).cons _).cons _

theorem sublist_of_operands {ts rest : List Token} {es : List Expression} :
    Operands ts es rest → rest.Sublist ts
  | .nil _ => List.Sublist.refl _
  | .cons he hes => (sublist_of_operands hes).trans (sublist_of_expr he)

end

mutual

theorem sublist_of_stmt {ts rest : List Token} {s : Statement} :
    Stmt ts s rest → rest.Sublist ts
  | .block _ hbody _ => ((List.sublist_cons_self _ _).trans (sublist_of_stmts hbody)).cons _
  | .ifThen _ htest hyes _ => ((sublist_of_stmt hyes).trans (sublist_of_expr htest)).cons _
  | .ifThenElse _ htest hyes _ hno =>
    ((((sublist_of_stmt hno).cons _).trans (sublist_of_stmt hyes)).trans
      (sublist_of_expr htest)).cons _
  | .loop _ htest hbody => ((sublist_of_stmt hbody).trans (sublist_of_expr htest)).cons _
  | .ret .. => List.sublist_cons_self _ _
  | .retValue _ hvalue => (sublist_of_expr hvalue).cons _
  | .expression he => sublist_of_expr he

theorem sublist_of_stmts {ts rest : List Token} {ss : List Statement} :
    Stmts ts ss rest → rest.Sublist ts
  | .nil _ => List.Sublist.refl _
  | .cons hs hss => (sublist_of_stmts hss).trans (sublist_of_stmt hs)

end

theorem sublist_of_proc_internal {t u : Token} {ts afterName afterParams afterLocals : List Token}
    {returns : TypeAt} {ps : List Parameter} {locals : List Declaration}
    (htype : TypeName ts returns (u :: afterName)) (hps : Params afterName ps afterParams)
    (hlocals : VarList afterParams locals afterLocals) : afterLocals.Sublist (t :: ts) := by
  have hname := (List.sublist_cons_self _ _).trans (sublist_of_typeName htype)
  exact (((sublist_of_varList hlocals).trans (sublist_of_params hps)).trans hname).cons _

theorem sublist_of_proc_external {t u : Token} {ts afterName rest : List Token} {returns : TypeAt}
    {ps : List Parameter} (htype : TypeName ts returns (u :: afterName))
    (hps : Params afterName ps rest) : rest.Sublist (t :: ts) := by
  have hname := (List.sublist_cons_self _ _).trans (sublist_of_typeName htype)
  exact ((sublist_of_params hps).trans hname).cons _

theorem sublist_of_proc {q : Procedure} (h : Proc ts q rest) : rest.Sublist ts := by
  cases h with
  | internal _ htype _ hps hlocals hbody _ =>
    exact (sublist_of_stmt hbody).trans (sublist_of_proc_internal htype hps hlocals)
  | external _ htype _ hps _ => exact sublist_of_proc_external htype hps

/-- Some of the tokens, in their order, begin with what derives the expression. -/
def DerivedIn (ts : List Token) (e : Expression) : Prop :=
  ∃ ts' rest', ts'.Sublist ts ∧ Expr ts' e rest'

theorem DerivedIn.mono {us : List Token} {e : Expression} (h : DerivedIn ts e)
    (hsub : ts.Sublist us) : DerivedIn us e := by
  obtain ⟨ts', rest', hts', he⟩ := h
  exact ⟨ts', rest', hts'.trans hsub, he⟩

theorem Expr.derivedIn {e : Expression} (h : Expr ts e rest) : DerivedIn ts e :=
  ⟨ts, rest, List.Sublist.refl _, h⟩

/-- `Carries ts es`: the expressions begin one after the other among the tokens, and a token where
none begins is no literal. -/
inductive Carries : List Token → List Expression → Prop
  | nil : Carries [] []
  | begins {t : Token} {ts rest : List Token} {e : Expression} {es : List Expression}
    (first : Expr (t :: ts) e rest) (others : Carries ts es) : Carries (t :: ts) (e :: es)
  | skips {t : Token} {ts : List Token} {es : List Expression}
    (kind : isLiteralKind t.kind = false) (others : Carries ts es) : Carries (t :: ts) es

theorem Carries.of_skips {es : List Expression} (hskips : Skips ts rest) (h : Carries rest es) :
    Carries ts es := by
  obtain ⟨skipped, rfl, hskipped⟩ := hskips
  induction skipped with
  | nil => exact h
  | cons t skipped ih =>
    rw [List.forall_mem_cons] at hskipped
    exact .skips hskipped.1 (ih hskipped.2)

/-- The expressions that are carried are derived from some of the tokens. -/
theorem Carries.derivedIn {es : List Expression} (h : Carries ts es) :
    ∀ e ∈ es, DerivedIn ts e := by
  induction h with
  | nil => simp
  | begins hfirst _ ih =>
    rw [List.forall_mem_cons]
    exact ⟨hfirst.derivedIn, fun e he => (ih e he).mono (List.sublist_cons_self _ _)⟩
  | skips _ _ ih => exact fun e he => (ih e he).mono (List.sublist_cons_self _ _)

theorem isLiteralKind_operator {kind : Token.Kind} (h : kind.isSign ∨ kind = .name) :
    isLiteralKind kind = false := by
  cases kind <;> simp_all [isLiteralKind, Token.Kind.isSign]

mutual

/-- The tokens of an expression carry its parts, followed by what the other tokens carry. -/
theorem carries_of_expr {ts rest : List Token} {e : Expression} {es : List Expression} :
    Expr ts e rest → Carries rest es → Carries ts (e.parts ++ es)
  | h@(.integer ..), hrest | h@(.character ..), hrest | h@(.boolean ..), hrest
  | h@(.text ..), hrest => by
    rw [Expression.parts_literal]
    exact .begins h hrest
  | h@(.size _ hopening htype hclosing _), hrest => by
    rw [Expression.parts_literal]
    have hafter := hrest.skips (by rw [hclosing]; rfl)
    exact .begins h (.skips (by rw [hopening]; rfl) (hafter.of_skips (skips_of_typeName htype)))
  | h@(.var ..), hrest => by
    rw [Expression.parts_var]
    exact .begins h hrest
  | h@(.operation _ hoperator hes hclosing), hrest => by
    rw [Expression.parts, Expression.operandParts_eq_flatMap]
    have hoperands := carries_of_operands hes (hrest.skips (by rw [hclosing]; rfl))
    exact .begins h (.skips (isLiteralKind_operator hoperator) hoperands)

theorem carries_of_operands {ts rest : List Token} {operands es : List Expression} :
    Operands ts operands rest → Carries rest es →
      Carries ts (operands.flatMap Expression.parts ++ es)
  | .nil _, hrest => hrest
  | .cons he hes, hrest => by
    rw [List.flatMap_cons, List.append_assoc]
    exact carries_of_expr he (carries_of_operands hes hrest)

end

mutual

theorem carries_of_stmt {ts rest : List Token} {s : Statement} {es : List Expression} :
    Stmt ts s rest → Carries rest es → Carries ts (s.parts ++ es)
  | .block hopening hbody hclosing, hrest => by
    rw [Statement.parts_block]
    have hinside := carries_of_stmts hbody (hrest.skips (by rw [hclosing]; rfl))
    exact .skips (by rw [hopening]; rfl) hinside
  | .ifThen hword htest hyes _, hrest | .loop hword htest hyes, hrest => by
    rw [Statement.parts, Statement.expressions, List.flatMap_cons, List.append_assoc]
    exact .skips (by rw [hword]; rfl) (carries_of_expr htest (carries_of_stmt hyes hrest))
  | .ifThenElse hword htest hyes hother hno, hrest => by
    rw [Statement.parts_ifThenElse, List.append_assoc, List.append_assoc]
    have helse := (carries_of_stmt hno hrest).skips (by rw [hother]; rfl)
    exact .skips (by rw [hword]; rfl) (carries_of_expr htest (carries_of_stmt hyes helse))
  | .ret hword _, hrest => by
    rw [Statement.parts_ret_none]
    exact hrest.skips (by rw [hword]; rfl)
  | .retValue hword hvalue, hrest => by
    rw [Statement.parts_ret_some]
    exact .skips (by rw [hword]; rfl) (carries_of_expr hvalue hrest)
  | .expression he, hrest => by
    rw [Statement.parts_expression]
    exact carries_of_expr he hrest

theorem carries_of_stmts {ts rest : List Token} {ss : List Statement} {es : List Expression} :
    Stmts ts ss rest → Carries rest es → Carries ts (ss.flatMap Statement.parts ++ es)
  | .nil _, hrest => hrest
  | .cons hs hss, hrest => by
    rw [List.flatMap_cons, List.append_assoc]
    exact carries_of_stmt hs (carries_of_stmts hss hrest)

end

theorem carries_of_proc {q : Procedure} {es : List Expression} (h : Proc ts q rest)
    (hrest : Carries rest es) : Carries ts ((q.body?.map Statement.parts).getD [] ++ es) := by
  cases h with
  | internal hword htype hname hps hlocals hbody _ =>
    have hlist := (carries_of_stmt hbody hrest).of_skips (skips_of_varList hlocals)
    have hafter := (hlist.of_skips (skips_of_params hps)).skips (by rw [hname]; rfl)
    exact .skips (by rw [hword]; rfl) (hafter.of_skips (skips_of_typeName htype))
  | external hword htype hname hps _ =>
    have hafter := (hrest.of_skips (skips_of_params hps)).skips (by rw [hname]; rfl)
    exact .skips (by rw [hword]; rfl) (hafter.of_skips (skips_of_typeName htype))

theorem carries_of_procs {qs : List Procedure} (h : Procs ts qs) :
    Carries ts (qs.flatMap fun q => (q.body?.map Statement.parts).getD []) := by
  induction h with
  | nil => exact .nil
  | cons hproc _ ih =>
    rw [List.flatMap_cons]
    exact carries_of_proc hproc ih

/-- The tokens of a program carry its expressions. -/
theorem carries_of_derives {p : Program} (h : Derives ts p) : Carries ts p.parts := by
  cases h with
  | intro hvars hprocs _ _ => exact (carries_of_procs hprocs).of_skips (skips_of_varList hvars)

/-- The expressions of a derived program are derived from its tokens. -/
theorem derivedIn_of_derives {p : Program} (h : Derives ts p) {q : Procedure}
    (hq : q ∈ p.procedures) {body : Statement} (hbody : q.body? = some body) {e : Expression}
    (he : e ∈ body.parts) : DerivedIn ts e :=
  (carries_of_derives h).derivedIn e (Program.mem_parts.mpr ⟨q, hq, body, hbody, he⟩)

/-- A derived procedure has the table of its own names. -/
theorem table_of_procs {ps : List Procedure} (h : Procs ts ps) :
    ∀ q ∈ ps, Table (Procedure.entries q.parameters q.locals) q.symbols := by
  induction h with
  | nil => simp
  | cons hp _ ih =>
    rw [List.forall_mem_cons]
    refine ⟨?_, ih⟩
    cases hp with
    | internal _ _ _ _ _ _ htable | external _ _ _ _ htable => exact htable

end ProcLang.Grammar
