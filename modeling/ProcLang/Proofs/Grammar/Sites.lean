import ProcLang.Proofs.Grammar.Parts
import ProcLang.Proofs.Grammar.Program

/-! The places where an expression is wanted. What stands before such a place is derived, and what
follows it is left open. A fault that is found there is the fault of the whole program. -/
namespace ProcLang

namespace Grammar

/-- `ExprSite here ts`: an expression begins at `here`, at or inside the one that begins `ts`. -/
inductive ExprSite (here : List Token) : List Token → Prop
  | self {t : Token} {rest : List Token} (tokens : here = t :: rest)
    (begins : Parser.beginsExpression t.kind = true) : ExprSite here here
  | operand {t u : Token} {ts mid : List Token} {es : List Expression}
    (opening : t.kind = .delimiter .openParen) (operator : u.kind.isSign ∨ u.kind = .name)
    (earlier : Operands ts es mid) (inside : ExprSite here mid) : ExprSite here (t :: u :: ts)

/-- The same inside the statement that begins `ts`. -/
inductive StmtSite (here : List Token) : List Token → Prop
  | item {t : Token} {ts mid : List Token} {ss : List Statement}
    (opening : t.kind = .delimiter .openBrace) (earlier : Stmts ts ss mid)
    (inside : StmtSite here mid) : StmtSite here (t :: ts)
  | value {t : Token} {ts : List Token} (word : t.kind = .keyword .if_ ∨
      t.kind = .keyword .while_ ∨ t.kind = .keyword .return_)
    (inside : ExprSite here ts) : StmtSite here (t :: ts)
  | branch {t : Token} {ts mid : List Token} {condition : Expression}
    (word : t.kind = .keyword .if_ ∨ t.kind = .keyword .while_) (test : Expr ts condition mid)
    (inside : StmtSite here mid) : StmtSite here (t :: ts)
  | otherBranch {t u : Token} {ts mid after : List Token} {condition : Expression}
    {yes : Statement} (word : t.kind = .keyword .if_) (test : Expr ts condition mid)
    (branch : Stmt mid yes (u :: after)) (other : u.kind = .keyword .else_)
    (inside : StmtSite here after) : StmtSite here (t :: ts)
  | expression {ts : List Token} (inside : ExprSite here ts) : StmtSite here ts

/-- The same in the body of one of the procedures that `ts` consists of. -/
inductive ProcsSite (here : List Token) : List Token → Prop
  | body {t u : Token} {ts afterName afterParams afterLocals : List Token} {returns : TypeAt}
    {ps : List Parameter} {locals : List Declaration} (word : t.kind = .keyword .proc)
    (typed : TypeName ts returns (u :: afterName)) (name : u.kind = .name)
    (params : Params afterName ps afterParams) (vars : VarList afterParams locals afterLocals)
    (inside : StmtSite here afterLocals) : ProcsSite here (t :: ts)
  | later {ts rest : List Token} {p : Procedure} (first : Proc ts p rest)
    (inside : ProcsSite here rest) : ProcsSite here ts

/-- `Site here ts`: in a program of the tokens `ts`, an expression is wanted where `here` is left
over. -/
inductive Site (here : List Token) : List Token → Prop
  | intro {ts rest : List Token} {globals : List Declaration} (vars : VarList ts globals rest)
    (inside : ProcsSite here rest) : Site here ts

/-! What is wanted comes after what is derived, so a site leaves over some of the tokens. -/

variable {here ts : List Token}

theorem sublist_of_exprSite (h : ExprSite here ts) : here.Sublist ts := by
  induction h with
  | self => exact List.Sublist.refl _
  | operand _ _ hearlier _ ih => exact ((ih.trans (sublist_of_operands hearlier)).cons _).cons _

theorem sublist_of_stmtSite (h : StmtSite here ts) : here.Sublist ts := by
  induction h with
  | item _ hearlier _ ih => exact (ih.trans (sublist_of_stmts hearlier)).cons _
  | value _ hinside => exact (sublist_of_exprSite hinside).cons _
  | branch _ htest _ ih => exact (ih.trans (sublist_of_expr htest)).cons _
  | otherBranch _ htest hbranch _ _ ih =>
    exact (((ih.cons _).trans (sublist_of_stmt hbranch)).trans (sublist_of_expr htest)).cons _
  | expression hinside => exact sublist_of_exprSite hinside

theorem sublist_of_procsSite (h : ProcsSite here ts) : here.Sublist ts := by
  induction h with
  | body _ htype _ hps hvars hinside =>
    exact (sublist_of_stmtSite hinside).trans (sublist_of_proc_internal htype hps hvars)
  | later hfirst _ ih => exact ih.trans (sublist_of_proc hfirst)

theorem sublist_of_site (h : Site here ts) : here.Sublist ts := by
  cases h with
  | intro hvars hinside => exact (sublist_of_procsSite hinside).trans (sublist_of_varList hvars)

end Grammar

namespace Parser

open Grammar

variable {eof : Nat} {fault : Fault} {here ts mid : List Token}

theorem begins_of_exprSite (h : ExprSite here ts) :
    ∃ t rest, ts = t :: rest ∧ beginsExpression t.kind = true := by
  cases h with
  | self htokens hbegins => exact ⟨_, _, htokens, hbegins⟩
  | operand hopening => exact ⟨_, _, rfl, by simp [hopening, beginsExpression]⟩

theorem expressions_eq_error {es : List Expression} (h : Operands ts es mid)
    (hfault : expression eof mid = .error fault) : expressions eof ts = .error fault := by
  induction es generalizing ts with
  | nil =>
    cases h
    rw [expressions, hfault]
    rfl
  | cons e es ih =>
    cases h with
    | cons he hes =>
      obtain ⟨afterFirst, hfirst, rfl⟩ := expression_of_expr eof he
      rw [expressions, hfirst]
      simp only [Outcome.ok_bind, ih hes]
      rfl

theorem expression_eq_error (h : ExprSite here ts) (hfault : expression eof here = .error fault) :
    expression eof ts = .error fault := by
  induction h with
  | self => exact hfault
  | @operand t u ts mid es hopening hoperator hearlier _ ih =>
    obtain ⟨inside, hu, hinside⟩ : Yields (operatorToken t.loc (u :: ts)) u ts :=
      operatorToken_yields.mpr ⟨rfl, hoperator⟩
    have hoperands := expressions_eq_error hearlier ih
    rw [← hinside] at hoperands
    rw [expression]
    simp only [hopening, hu, Outcome.ok_bind, hoperands]
    rfl

theorem statement_of_begins {t : Token} {rest : List Token}
    (hbegins : beginsExpression t.kind = true)
    (hfault : expression eof (t :: rest) = .error fault) :
    statement eof (t :: rest) = .error fault := by
  rw [statement]
  split
  next hk => simp [hk, beginsExpression] at hbegins
  next hk => simp [hk, beginsExpression] at hbegins
  next hk => simp [hk, beginsExpression] at hbegins
  next hk => simp [hk, beginsExpression] at hbegins
  next =>
    rw [hfault]
    rfl

/-- Statements before a fault are found, or the last of them looks ahead to it. -/
theorem statements_eq_error {ss : List Statement} (h : Stmts ts ss mid)
    (hfault : statement eof mid = .error fault)
    (hexpr : ∀ fault', expression eof mid = .error fault' → fault' = fault) :
    statements eof ts = .error fault := by
  induction ss generalizing ts with
  | nil =>
    cases h
    rw [statements, hfault]
    rfl
  | cons s ss ih =>
    cases h with
    | cons hs hss =>
      rw [statements]
      rcases statement_cases eof hs with ⟨afterFirst, hfirst, rfl⟩ | ⟨fault', hexpr', hfirst⟩
      · simp only [hfirst, Outcome.ok_bind, ih hss]
        rfl
      · rw [hfirst]
        cases hss with
        | nil =>
          rw [hexpr fault' hexpr']
          rfl
        | cons hs' _ =>
          obtain ⟨found, hfound⟩ := expression_of_stmt eof hs'
          rw [hfound] at hexpr'
          cases hexpr'

/-- Looking for an expression where a statement is wanted finds no other fault. -/
theorem eq_of_stmtSite (h : StmtSite here ts) (hfault : expression eof here = .error fault)
    (fault' : Fault) (hfault' : expression eof ts = .error fault') : fault' = fault := by
  have hnone : ∀ {t : Token} {rest : List Token}, beginsExpression t.kind = false →
      expression eof (t :: rest) = .error fault' → fault' = fault := by
    intro t rest hbegins hfault'
    rw [expression_eq_none (by simpa using hbegins)] at hfault'
    cases hfault'
  cases h with
  | item hopening => exact hnone (by simp [hopening, beginsExpression]) hfault'
  | value hword =>
    exact hnone (by rcases hword with h | h | h <;> simp [h, beginsExpression]) hfault'
  | branch hword => exact hnone (by rcases hword with h | h <;> simp [h, beginsExpression]) hfault'
  | otherBranch hword => exact hnone (by simp [hword, beginsExpression]) hfault'
  | expression hinside =>
    rw [expression_eq_error hinside hfault] at hfault'
    exact (Except.error.inj hfault').symm

theorem statement_eq_error (h : StmtSite here ts) (hfault : expression eof here = .error fault) :
    statement eof ts = .error fault := by
  induction h with
  | item hopening hearlier hinside ih =>
    rw [statement]
    simp only [hopening, statements_eq_error hearlier ih (eq_of_stmtSite hinside hfault)]
    rfl
  | value hword hinside =>
    have hvalue := expression_eq_error hinside hfault
    rw [statement]
    rcases hword with hk | hk | hk <;> simp only [hk, hvalue] <;> rfl
  | branch hword htest _ ih =>
    obtain ⟨left, hcondition, rfl⟩ := expression_of_expr eof htest
    rw [statement]
    rcases hword with hk | hk <;>
      simp only [hk, hcondition, orElse, Outcome.ok_bind, Outcome.pure_eq, ih] <;> rfl
  | @otherBranch t u ts mid after condition yes hword htest hbranch hother _ ih =>
    have helse : expression eof (u :: after) = .ok none :=
      expression_eq_none (by simp [hother, beginsExpression])
    obtain ⟨afterIf, hcondition, rfl⟩ := expression_of_expr eof htest
    obtain ⟨afterYes, hyes, hafter⟩ := statement_of_stmt eof hbranch ⟨none, helse⟩
    have hlt : after.length < afterYes.val.length := by simp [hafter]
    have hsome : accept? (.keyword .else_) afterYes.val = some (u, ⟨after, hlt⟩) :=
      accept?_eq_some.mpr ⟨hafter, hother⟩
    rw [statement]
    simp only [hword, hcondition, orElse, Outcome.ok_bind, Outcome.pure_eq, hyes, hsome, ih]
    rfl
  | expression hinside =>
    have hvalue := expression_eq_error hinside hfault
    obtain ⟨t, rest, rfl, hbegins⟩ := begins_of_exprSite hinside
    exact statement_of_begins hbegins hvalue

theorem next?_of_stmtSite (h : StmtSite here ts) :
    next? ts ≠ some (.delimiter .openBracket) := by
  cases h with
  | item hopening => simp [hopening]
  | value hword => rcases hword with h | h | h <;> simp [h]
  | branch hword => rcases hword with h | h <;> simp [h]
  | otherBranch hword => simp [hword]
  | expression hinside =>
    obtain ⟨t, rest, rfl, hbegins⟩ := begins_of_exprSite hinside
    intro hk
    rw [next?_cons, Option.some.injEq] at hk
    rw [hk] at hbegins
    cases hbegins

theorem next?_of_procsSite (h : ProcsSite here ts) :
    next? ts = some (.keyword .proc) ∨ next? ts = some (.keyword .extern_) := by
  cases h with
  | body hword => exact .inl (congrArg some hword)
  | later hfirst =>
    cases hfirst with
    | internal hk => exact .inl (congrArg some hk)
    | external hk => exact .inr (congrArg some hk)

theorem procedures_eq_error (h : ProcsSite here ts)
    (hfault : expression eof here = .error fault) :
    (procedures eof ts).result = .error fault := by
  induction h with
  | @body t u ts afterName afterParams afterLocals returns ps locals hword htype hname hps hvars
      hinside =>
    obtain ⟨afterType, left₁, left₂, left₃, htype', hname', hps', hlocals', rfl⟩ :=
      exists_header eof htype hname hps hvars (next?_of_stmtSite hinside)
    have hprocedure : internalProcedure eof ts = .error fault := by
      unfold internalProcedure
      simp only [htype', hname', hps', hlocals', Outcome.ok_bind,
        orElse_eq_error _ (statement_eq_error hinside hfault)]
      rfl
    have haccept : accept? (.keyword .proc) (t :: ts) = some (t, .tail t ts) :=
      accept?_eq_some.mpr ⟨rfl, hword⟩
    have hp : procedure eof (t :: ts) = .error fault := by
      unfold procedure
      simp only [haccept, Shorter.tail, hprocedure]
      rfl
    rw [procedures.eq_def, hp]
    rfl
  | @later ts rest p hfirst hinside ih =>
    have hexpr : expression eof rest = .ok none := by
      refine expression_eq_none ?_
      rcases next?_of_procsSite hinside with hnext | hnext <;> simp [beginsExpression, *]
    obtain ⟨left, hp, rfl⟩ := procedure_of_proc hfirst ⟨none, hexpr⟩
    rw [procedures.eq_def, hp]
    simp only [Traced.bind_eq_error]
    exact .inr ⟨(), rfl, .inl ih⟩

end Parser

/-- A fault that is found where an expression is wanted is the fault of the program. -/
theorem Program.parse_eq_error (eof : Nat) {tokens here : List Token} {fault : Fault}
    (h : Grammar.Site here (tokens.filter Token.isSignificant))
    (hfault : Parser.expression eof here = .error fault) :
    (parse eof tokens).result = .error fault := by
  rw [parse_of_keeps eof rfl]
  cases h with
  | @intro rest globals hvars hinside =>
    have hnext : Grammar.next? rest ≠ some (.delimiter .openBracket) := by
      rcases Parser.next?_of_procsSite hinside with hnext | hnext <;> simp [hnext]
    obtain ⟨left, hglobals, rfl⟩ := Parser.variableList_of_varList eof hvars hnext
    simp only [Traced.bind_eq_error, Traced.ofExcept_result, hglobals]
    exact .inr ⟨_, rfl, .inr ⟨(), rfl, .inl (Parser.procedures_eq_error hinside hfault)⟩⟩

end ProcLang
