import ProcLang.Proofs.Grammar.Declaration
import ProcLang.Proofs.Grammar.Numeral

/-! Expressions and statements are parsed as the grammar derives them. -/
namespace ProcLang.Parser

open Grammar

/-- A production finds a value and leaves over some tokens. -/
def Finds {P : List Token → Prop} (r : Except Fault (Option (α × Subtype P))) (a : α)
    (rest : List Token) : Prop :=
  ∃ left, r = .ok (some (a, left)) ∧ left.val = rest

section

variable {P : List Token → Prop} {a : α} {rest : List Token}

theorem finds_of_eq {r : Except Fault (Option (α × Subtype P))} {left : Subtype P}
    (h : r = .ok (some (a, left))) : Finds r a left.val :=
  ⟨left, h, rfl⟩

theorem finds_some {left : Subtype P} {a' : α} :
    Finds (.ok (some (a, left))) a' rest ↔ a = a' ∧ left.val = rest := by
  constructor
  · rintro ⟨left', h, rfl⟩
    cases h
    exact ⟨rfl, rfl⟩
  · rintro ⟨rfl, rfl⟩
    exact ⟨left, rfl, rfl⟩

theorem finds_none :
    ¬Finds (.ok none : Except Fault (Option (α × Subtype P))) a rest := by
  rintro ⟨left, h, -⟩
  cases h

theorem finds_error {fault : Fault} :
    ¬Finds (.error fault : Except Fault (Option (α × Subtype P))) a rest := by
  rintro ⟨left, h, -⟩
  cases h

theorem finds_bind {step : Except Fault β} {next : β → Except Fault (Option (α × Subtype P))} :
    Finds (step >>= next) a rest ↔ ∃ b, step = .ok b ∧ Finds (next b) a rest := by
  constructor
  · rintro ⟨left, h, rfl⟩
    obtain ⟨b, hstep, hnext⟩ := Outcome.bind_eq_ok.mp h
    exact ⟨b, hstep, left, hnext, rfl⟩
  · rintro ⟨b, hstep, left, hnext, rfl⟩
    exact ⟨left, Outcome.bind_eq_ok.mpr ⟨b, hstep, hnext⟩, rfl⟩

/-- A production that can only fail with the fault of a step finds its value if that step ends
well. -/
theorem finds_of_safe {r : Except Fault (Option (α × Subtype P))} {step : Except Fault β}
    (h : Finds r a rest ∨ ∃ fault, step = .error fault ∧ r = .error fault)
    (hstep : ∃ b, step = .ok b) : Finds r a rest := by
  obtain ⟨b, hb⟩ := hstep
  rcases h with hfinds | ⟨fault, hfault, -⟩
  · exact hfinds
  · rw [hb] at hfault
    cases hfault

end

/-- The kinds of tokens that begin an expression. -/
def beginsExpression : Token.Kind → Bool
  | .integer | .character | .boolean | .text | .name => true
  | .keyword .sizeof | .delimiter .openParen => true
  | _ => false

theorem expression_eq_none {eof : Nat} {ts : List Token}
    (h : ∀ kind, next? ts = some kind → beginsExpression kind = false) :
    expression eof ts = .ok none := by
  cases ts with
  | nil => rw [expression]
  | cons t ts =>
    have hk := h t.kind rfl
    rw [expression]
    split
    next hname => simp [hname, beginsExpression] at hk
    next hsize => simp [hsize, beginsExpression] at hk
    next hopen => simp [hopen, beginsExpression] at hk
    next =>
      have hl : literal? t = .ok none := by
        unfold literal?
        split <;> simp_all [beginsExpression]
      rw [hl]
      rfl

theorem sizeofType_yields {eof loc : Nat} {ts rest : List Token} {e : Expression} :
    Yields (sizeofType eof loc ts) e rest ↔
      ∃ u w inside type size, ts = u :: inside ∧ u.kind = .delimiter .openParen ∧
        TypeName inside type (w :: rest) ∧ w.kind = .delimiter .closeParen ∧
        type.ty.size? = some size ∧ e = .literal ⟨.integer (Int64.ofNat size), loc⟩ := by
  unfold sizeofType
  simp only [yields_bind]
  constructor
  · rintro ⟨⟨u, inside⟩, hu, ⟨type, afterType⟩, ht, ⟨w, left⟩, hw, h⟩
    obtain ⟨hts, hopen⟩ := expect_yields.mp (yields_of_eq hu)
    obtain ⟨htype, -⟩ := typeName_yields.mp (yields_of_eq ht)
    obtain ⟨hafter, hclose⟩ := expect_yields.mp (yields_of_eq hw)
    dsimp only at h
    split at h
    next => exact (yields_error h).elim
    next size hsize =>
      obtain ⟨rfl, rfl⟩ := yields_ok.mp h
      rw [hafter] at htype
      exact ⟨u, w, inside.val, type, size, hts, hopen, htype, hclose, hsize, rfl⟩
  · rintro ⟨u, w, inside, type, size, rfl, hopen, htype, hclose, hsize, rfl⟩
    obtain ⟨inside', hu, hinside⟩ :
        Yields (expect eof (.delimiter .openParen) .sizeofOpen (u :: inside)) u inside :=
      expect_yields.mpr ⟨rfl, hopen⟩
    obtain ⟨afterType, ht, hafter⟩ : Yields (typeName eof inside'.val) type (w :: rest) := by
      rw [hinside]
      exact typeName_yields.mpr ⟨htype, by simp [hclose]⟩
    obtain ⟨left, hw, hleft⟩ :
        Yields (expect eof (.delimiter .closeParen) .sizeofClose afterType.val) w rest :=
      expect_yields.mpr ⟨hafter, hclose⟩
    refine ⟨(u, inside'), hu, (type, afterType), ht, (w, left), hw, ?_⟩
    simp only [hsize]
    exact yields_ok.mpr ⟨rfl, hleft⟩

theorem operatorToken_yields {start : Nat} {ts rest : List Token} {u : Token} :
    Yields (operatorToken start ts) u rest ↔ ts = u :: rest ∧ (u.kind.isSign ∨ u.kind = .name) := by
  cases ts with
  | nil => exact ⟨fun h => (yields_error h).elim, fun h => by cases h.1⟩
  | cons t ts =>
    rw [operatorToken]
    split
    next hk =>
      rw [yields_ok]
      constructor
      · rintro ⟨rfl, rfl⟩
        exact ⟨rfl, hk⟩
      · rintro ⟨h, -⟩
        rwa [List.cons.injEq] at h
    next hk =>
      refine ⟨fun h => (yields_error h).elim, ?_⟩
      rintro ⟨h, hk'⟩
      rw [List.cons.injEq] at h
      rw [h.1] at hk
      exact absurd hk' hk

theorem expr_of_literal? {t : Token} {value : LiteralValue} (rest : List Token)
    (h : literal? t = .ok (some value)) : Expr (t :: rest) (.literal ⟨value, t.loc⟩) rest := by
  unfold literal? at h
  split at h
  next hk =>
    split at h
    next value hv =>
      cases h
      exact .integer rest hk (Text.int64?_eq_some.mp hv)
    next => cases h
  next hk =>
    cases h
    exact .character rest hk
  next hk =>
    cases h
    rw [beq_eq_decide]
    exact .boolean rest hk
  next hk =>
    cases h
    exact .text rest hk
  next => cases h

/-- One expression, given that shorter rows of operands are parsed as they should be. -/
private theorem expr_of_expression_step {eof : Nat} {ts rest : List Token} {e : Expression}
    (ih : ∀ ts' es rest', ts'.length < ts.length → Yields (expressions eof ts') es rest' →
      Operands ts' es rest')
    (h : Finds (expression eof ts) e rest) : Expr ts e rest := by
  cases ts with
  | nil =>
    rw [expression] at h
    exact (finds_none h).elim
  | cons t ts =>
    rw [expression] at h
    split at h
    next hk =>
      obtain ⟨rfl, rfl⟩ := finds_some.mp h
      exact .var ts hk
    next hk =>
      rw [finds_bind] at h
      obtain ⟨⟨e', left⟩, hsize, h⟩ := h
      obtain ⟨rfl, rfl⟩ := finds_some.mp h
      obtain ⟨u, w, inside, type, size, rfl, hopen, htype, hclose, hs, rfl⟩ :=
        sizeofType_yields.mp (yields_of_eq hsize)
      exact .size hk hopen htype hclose hs
    next hk =>
      simp only [finds_bind] at h
      obtain ⟨⟨u, inside⟩, hu, ⟨es, afterOperands⟩, hes, ⟨w, left⟩, hw, h⟩ := h
      obtain ⟨rfl, rfl⟩ := finds_some.mp h
      obtain ⟨hts, hop⟩ := operatorToken_yields.mp (yields_of_eq hu)
      obtain ⟨hafter, hclose⟩ := expect_yields.mp (yields_of_eq hw)
      have hlt : inside.val.length < (t :: ts).length :=
        Nat.lt_succ_of_lt inside.property
      have hoperands := ih inside.val es afterOperands.val hlt (yields_of_eq hes)
      rw [hafter] at hoperands
      have hexpr := Expr.operation hk hop hoperands hclose
      rwa [← hts] at hexpr
    next =>
      rw [finds_bind] at h
      obtain ⟨value?, hl, h⟩ := h
      cases value? with
      | none => exact (finds_none h).elim
      | some value =>
        obtain ⟨rfl, rfl⟩ := finds_some.mp h
        exact expr_of_literal? ts hl

private theorem operands_of_expressions_step {eof : Nat} {ts rest : List Token}
    {es : List Expression}
    (hexpr : ∀ ts' e rest', ts'.length ≤ ts.length → Finds (expression eof ts') e rest' →
      Expr ts' e rest')
    (h : Yields (expressions eof ts) es rest) : Operands ts es rest := by
  induction hn : ts.length using Nat.strong_induction_on generalizing ts rest es with
  | _ n ih =>
    subst hn
    rw [expressions, yields_bind] at h
    obtain ⟨found, hfound, h⟩ := h
    cases found with
    | none =>
      obtain ⟨rfl, rfl⟩ := yields_ok.mp h
      exact .nil ts
    | some pair =>
      obtain ⟨e, afterFirst⟩ := pair
      dsimp only at h
      rw [yields_bind] at h
      obtain ⟨⟨es, left⟩, hes, h⟩ := h
      obtain ⟨rfl, rfl⟩ := yields_ok.mp h
      have hlt := afterFirst.property
      exact .cons (hexpr ts e afterFirst.val (Nat.le_refl _) (finds_of_eq hfound))
        (ih _ hlt (fun ts' e rest' hle => hexpr ts' e rest' (by omega)) (yields_of_eq hes) rfl)

theorem expr_of_expression {eof : Nat} {ts rest : List Token} {e : Expression}
    (h : Finds (expression eof ts) e rest) : Expr ts e rest := by
  induction hn : ts.length using Nat.strong_induction_on generalizing ts rest e with
  | _ n ih =>
    subst hn
    refine expr_of_expression_step (fun ts' es rest' hlt hes => ?_) h
    exact operands_of_expressions_step
      (fun ts'' e rest'' hle he => ih _ (Nat.lt_of_le_of_lt hle hlt) he rfl) hes

theorem begins_of_expr {ts rest : List Token} {e : Expression} (h : Expr ts e rest) :
    ∃ t ts', ts = t :: ts' ∧ beginsExpression t.kind = true := by
  cases h <;> exact ⟨_, _, rfl, by simp [beginsExpression, *]⟩

theorem literal?_of_kind {t : Token} {value : LiteralValue}
    (h : literal? t = .ok (some value)) (eof : Nat) (rest : List Token) :
    Finds (expression eof (t :: rest)) (.literal ⟨value, t.loc⟩) rest := by
  have hk : t.kind ≠ .name ∧ t.kind ≠ .keyword .sizeof ∧ t.kind ≠ .delimiter .openParen := by
    refine ⟨?_, ?_, ?_⟩ <;> intro hk <;> simp [literal?, hk] at h
  rw [expression]
  split
  next hname => exact absurd hname hk.1
  next hsize => exact absurd hsize hk.2.1
  next hopen => exact absurd hopen hk.2.2
  next =>
    rw [h]
    exact ⟨Shorter.tail t rest, rfl, rfl⟩

mutual

/-- What is derived is found. -/
theorem expression_of_expr (eof : Nat) {ts rest : List Token} {e : Expression} :
    Expr ts e rest → Finds (expression eof ts) e rest
  | .integer rest hk hnum => by
    refine literal?_of_kind ?_ eof rest
    simp [literal?, hk, Text.int64?_eq_some.mpr hnum]
  | .character rest hk => literal?_of_kind (by simp [literal?, hk]) eof rest
  | .boolean rest hk => literal?_of_kind (by simp [literal?, hk, beq_eq_decide]) eof rest
  | .text rest hk => literal?_of_kind (by simp [literal?, hk]) eof rest
  | @Expr.size t u w ts rest type size hk hopen htype hclose hsize => by
    obtain ⟨left, he, hleft⟩ : Yields (sizeofType eof t.loc (u :: ts))
        (.literal ⟨.integer (Int64.ofNat size), t.loc⟩) rest :=
      sizeofType_yields.mpr ⟨u, w, ts, type, size, rfl, hopen, htype, hclose, hsize, rfl⟩
    rw [expression]
    simp only [hk, finds_bind]
    exact ⟨(_, left), he, finds_some.mpr ⟨rfl, hleft⟩⟩
  | @Expr.var t rest hk => by
    rw [expression]
    simp only [hk]
    exact finds_some.mpr ⟨rfl, rfl⟩
  | @Expr.operation t u w ts rest es hopen hop hes hclose => by
    have hend : expression eof (w :: rest) = .ok none :=
      expression_eq_none (by simp [hclose, beginsExpression])
    have hoperands := expressions_of_operands eof hes hend
    obtain ⟨inside, hu, hinside⟩ : Yields (operatorToken t.loc (u :: ts)) u ts :=
      operatorToken_yields.mpr ⟨rfl, hop⟩
    rw [← hinside] at hoperands
    obtain ⟨afterOperands, hes', hafter⟩ := hoperands
    obtain ⟨left, hw, hleft⟩ :
        Yields (expect eof (.delimiter .closeParen) .operationClose afterOperands.val) w rest :=
      expect_yields.mpr ⟨hafter, hclose⟩
    rw [expression]
    simp only [hopen, finds_bind]
    exact ⟨(u, inside), hu, (es, afterOperands), hes', (w, left), hw,
      finds_some.mpr ⟨rfl, hleft⟩⟩

theorem expressions_of_operands (eof : Nat) {ts rest : List Token} {es : List Expression} :
    Operands ts es rest → expression eof rest = .ok none → Yields (expressions eof ts) es rest
  | .nil rest, hend => by
    rw [expressions, yields_bind]
    exact ⟨none, hend, yields_ok.mpr ⟨rfl, rfl⟩⟩
  | .cons he hes, hend => by
    obtain ⟨afterFirst, hfirst, hafter⟩ := expression_of_expr eof he
    have hrest := expressions_of_operands eof hes hend
    rw [← hafter] at hrest
    obtain ⟨left, hes', hleft⟩ := hrest
    rw [expressions, yields_bind]
    refine ⟨some (_, afterFirst), hfirst, ?_⟩
    exact yields_bind.mpr ⟨(_, left), hes', yields_ok.mpr ⟨rfl, hleft⟩⟩

end

theorem orElse_yields (fault : Fault) {ts rest : List Token} {r : May α ts} {a : α} :
    Yields (orElse r fault) a rest ↔ Finds r a rest := by
  unfold orElse
  rw [yields_bind]
  constructor
  · rintro ⟨found, rfl, h⟩
    cases found with
    | none => exact (yields_error h).elim
    | some pair => exact finds_some.mpr (yields_ok.mp h)
  · rintro ⟨left, h, hleft⟩
    exact ⟨some (a, left), h, yields_ok.mpr ⟨rfl, hleft⟩⟩

/-- One statement, given that shorter ones are parsed as they should be. -/
private theorem stmt_of_statement_step {eof : Nat} {ts rest : List Token} {s : Statement}
    (ih : ∀ ts' s rest', ts'.length < ts.length → Finds (statement eof ts') s rest' →
      Stmt ts' s rest')
    (ihs : ∀ ts' ss rest', ts'.length < ts.length → Yields (statements eof ts') ss rest' →
      Stmts ts' ss rest')
    (h : Finds (statement eof ts) s rest) : Stmt ts s rest := by
  cases ts with
  | nil =>
    rw [statement] at h
    exact (finds_none h).elim
  | cons t ts =>
    have hlen : (t :: ts).length = ts.length + 1 := rfl
    rw [statement] at h
    split at h
    next hk =>
      rw [finds_bind] at h
      obtain ⟨⟨body, afterBody⟩, hbody, h⟩ := h
      have hstmts := ihs ts body afterBody.val (by omega) (yields_of_eq hbody)
      dsimp only at h
      split at h
      next => exact (finds_error h).elim
      next u after hafter =>
        split at h
        next hclose =>
          obtain ⟨rfl, rfl⟩ := finds_some.mp h
          rw [hafter] at hstmts
          exact .block hk hstmts hclose
        next => exact (finds_error h).elim
    next hk =>
      simp only [finds_bind] at h
      obtain ⟨⟨condition, afterIf⟩, hcond, ⟨yes, afterYes⟩, hyes, h⟩ := h
      have hlt := afterIf.property
      have hlt' : afterYes.val.length < afterIf.val.length := afterYes.property
      have htest := expr_of_expression ((orElse_yields _).mp (yields_of_eq hcond))
      have hbranch :=
        ih afterIf.val yes afterYes.val (by omega) ((orElse_yields _).mp (yields_of_eq hyes))
      dsimp only at h
      split at h
      next hnone =>
        obtain ⟨rfl, rfl⟩ := finds_some.mp h
        exact .ifThen hk htest hbranch (accept?_eq_none.mp hnone)
      next word afterElse helse =>
        obtain ⟨hafter, hword⟩ := accept?_eq_some.mp helse
        have hlt'' := afterElse.property
        rw [finds_bind] at h
        obtain ⟨⟨no, left⟩, hno, h⟩ := h
        obtain ⟨rfl, rfl⟩ := finds_some.mp h
        have hbranch' :=
          ih afterElse.val no left.val (by omega) ((orElse_yields _).mp (yields_of_eq hno))
        rw [hafter] at hbranch
        exact .ifThenElse hk htest hbranch hword hbranch'
    next hk =>
      simp only [finds_bind] at h
      obtain ⟨⟨condition, afterCondition⟩, hcond, ⟨body, left⟩, hbody, h⟩ := h
      obtain ⟨rfl, rfl⟩ := finds_some.mp h
      have hlt := afterCondition.property
      exact .loop hk (expr_of_expression ((orElse_yields _).mp (yields_of_eq hcond)))
        (ih _ body left.val (by omega) ((orElse_yields _).mp (yields_of_eq hbody)))
    next hk =>
      rw [finds_bind] at h
      obtain ⟨found, hfound, h⟩ := h
      cases found with
      | none =>
        obtain ⟨rfl, rfl⟩ := finds_some.mp h
        refine .ret hk fun e rest' he => ?_
        obtain ⟨left, he', -⟩ := expression_of_expr eof he
        rw [hfound] at he'
        cases he'
      | some pair =>
        obtain ⟨rfl, rfl⟩ := finds_some.mp h
        exact .retValue hk (expr_of_expression (finds_of_eq hfound))
    next =>
      rw [finds_bind] at h
      obtain ⟨found, hfound, h⟩ := h
      cases found with
      | none => exact (finds_none h).elim
      | some pair =>
        obtain ⟨rfl, rfl⟩ := finds_some.mp h
        exact .expression (expr_of_expression (finds_of_eq hfound))

private theorem stmts_of_statements_step {eof : Nat} {ts rest : List Token}
    {ss : List Statement}
    (hstmt : ∀ ts' s rest', ts'.length ≤ ts.length → Finds (statement eof ts') s rest' →
      Stmt ts' s rest')
    (h : Yields (statements eof ts) ss rest) : Stmts ts ss rest := by
  induction hn : ts.length using Nat.strong_induction_on generalizing ts rest ss with
  | _ n ih =>
    subst hn
    rw [statements, yields_bind] at h
    obtain ⟨found, hfound, h⟩ := h
    cases found with
    | none =>
      obtain ⟨rfl, rfl⟩ := yields_ok.mp h
      exact .nil ts
    | some pair =>
      obtain ⟨s, afterFirst⟩ := pair
      dsimp only at h
      rw [yields_bind] at h
      obtain ⟨⟨ss, left⟩, hss, h⟩ := h
      obtain ⟨rfl, rfl⟩ := yields_ok.mp h
      have hlt := afterFirst.property
      exact .cons (hstmt ts s afterFirst.val (Nat.le_refl _) (finds_of_eq hfound))
        (ih _ hlt (fun ts' s rest' hle => hstmt ts' s rest' (by omega)) (yields_of_eq hss) rfl)

theorem stmt_of_statement {eof : Nat} {ts rest : List Token} {s : Statement}
    (h : Finds (statement eof ts) s rest) : Stmt ts s rest := by
  induction hn : ts.length using Nat.strong_induction_on generalizing ts rest s with
  | _ n ih =>
    subst hn
    refine stmt_of_statement_step (fun ts' s rest' hlt hs => ih _ hlt hs rfl)
      (fun ts' ss rest' hlt hss => ?_) h
    exact stmts_of_statements_step
      (fun ts'' s rest'' hle hs => ih _ (Nat.lt_of_le_of_lt hle hlt) hs rfl) hss

/-- Looking for an expression is safe wherever a statement begins. -/
theorem expression_of_stmt (eof : Nat) {ts rest : List Token} {s : Statement}
    (h : Stmt ts s rest) : ∃ found, expression eof ts = .ok found := by
  cases h with
  | expression he =>
    obtain ⟨left, hfound, -⟩ := expression_of_expr eof he
    exact ⟨_, hfound⟩
  | _ =>
    refine ⟨none, expression_eq_none ?_⟩
    simp [beginsExpression, *]

theorem orElse_eq_error {ts : List Token} {r : May α ts} {fault : Fault} (other : Fault)
    (h : r = .error fault) : orElse r other = .error fault := by
  rw [h]
  rfl

/-- A statement that ends with a production can only fail with the fault of a look behind it, if
that is so for the production. -/
theorem orElse_bind_cases {look : Except Fault β} {ts : List Token} {r : May α ts}
    {P : List Token → Prop} {a : α} {b : γ} {rest : List Token} (other : Fault)
    (h : Finds r a rest ∨ ∃ fault, look = .error fault ∧ r = .error fault)
    {next : α × Shorter ts → Except Fault (Option (γ × Subtype P))}
    (hnext : ∀ left : Shorter ts, left.val = rest → Finds (next (a, left)) b rest) :
    Finds (orElse r other >>= next) b rest ∨
      ∃ fault, look = .error fault ∧ (orElse r other >>= next) = .error fault := by
  rcases h with hfinds | ⟨fault, hlook, hfault⟩
  · left
    obtain ⟨left, hleft, hrest⟩ := (orElse_yields other).mpr hfinds
    rw [finds_bind]
    exact ⟨(a, left), hleft, hnext left hrest⟩
  · right
    rw [orElse_eq_error other hfault]
    exact ⟨fault, hlook, rfl⟩

mutual

/-- What is derived is found. Only a last `return` looks for one more expression behind it, and
then a fault there is the fault of the statement. -/
theorem statement_cases (eof : Nat) {ts rest : List Token} {s : Statement} :
    Stmt ts s rest → Finds (statement eof ts) s rest ∨
      ∃ fault, expression eof rest = .error fault ∧ statement eof ts = .error fault
  | @Stmt.block t u ts rest body hk hbody hclose => by
    left
    have hexpr : expression eof (u :: rest) = .ok none :=
      expression_eq_none (by simp [hclose, beginsExpression])
    have hend : statement eof (u :: rest) = .ok none := by
      rw [statement]
      simp only [hclose, hexpr]
      rfl
    obtain ⟨afterBody, hbody', hafter⟩ := statements_of_stmts eof hbody hend ⟨none, hexpr⟩
    rw [statement]
    simp only [hk, finds_bind]
    refine ⟨(body, afterBody), hbody', ?_⟩
    split
    next hnil =>
      rw [hafter] at hnil
      cases hnil
    next u' rest' hcons =>
      rw [hafter, List.cons.injEq] at hcons
      obtain ⟨rfl, rfl⟩ := hcons
      rw [if_pos hclose]
      exact finds_some.mpr ⟨rfl, rfl⟩
  | @Stmt.ifThen t ts mid rest condition yes hk htest hyes halone => by
    obtain ⟨afterIf, hcond, hafterIf⟩ :=
      (orElse_yields (.located t.loc .missingCondition)).mpr (expression_of_expr eof htest)
    have hcases := statement_cases eof hyes
    rw [← hafterIf] at hcases
    rw [statement]
    simp only [hk, hcond, Outcome.ok_bind]
    refine orElse_bind_cases _ hcases fun afterYes hafterYes => ?_
    have hnone : accept? (.keyword .else_) afterYes.val = none := by
      rw [hafterYes]
      exact accept?_eq_none.mpr halone
    simp only [hnone]
    exact finds_some.mpr ⟨rfl, hafterYes⟩
  | @Stmt.ifThenElse t u ts mid after rest condition yes no hk htest hyes hword hno => by
    have helse : expression eof (u :: after) = .ok none :=
      expression_eq_none (by simp [hword, beginsExpression])
    obtain ⟨afterIf, hcond, hafterIf⟩ :=
      (orElse_yields (.located t.loc .missingCondition)).mpr (expression_of_expr eof htest)
    have hyes' := finds_of_safe (statement_cases eof hyes) ⟨none, helse⟩
    rw [← hafterIf] at hyes'
    obtain ⟨afterYes, hyes'', hafterYes⟩ :=
      (orElse_yields (.located t.loc .missingThen)).mpr hyes'
    have hlt : after.length < afterYes.val.length := by simp [hafterYes]
    have hsome : accept? (.keyword .else_) afterYes.val = some (u, ⟨after, hlt⟩) :=
      accept?_eq_some.mpr ⟨hafterYes, hword⟩
    rw [statement]
    simp only [hk, hcond, hyes'', hsome, Outcome.ok_bind]
    exact orElse_bind_cases _ (statement_cases eof hno) fun left hleft =>
      finds_some.mpr ⟨rfl, hleft⟩
  | @Stmt.loop t ts mid rest condition body hk htest hbody => by
    obtain ⟨afterCondition, hcond, hafter⟩ :=
      (orElse_yields (.located t.loc .missingLoopCondition)).mpr
        (expression_of_expr eof htest)
    have hcases := statement_cases eof hbody
    rw [← hafter] at hcases
    rw [statement]
    simp only [hk, hcond, Outcome.ok_bind]
    exact orElse_bind_cases _ hcases fun left hleft => finds_some.mpr ⟨rfl, hleft⟩
  | @Stmt.ret t rest hk halone => by
    rw [statement]
    simp only [hk]
    cases hfound : expression eof rest with
    | error fault => exact .inr ⟨fault, rfl, rfl⟩
    | ok found =>
      -- What is found here would have been derived, against `halone`.
      cases found with
      | none => exact .inl (finds_some.mpr ⟨rfl, rfl⟩)
      | some pair => exact absurd (expr_of_expression (finds_of_eq hfound)) (halone _ _)
  | @Stmt.retValue t ts rest value hk hvalue => by
    left
    obtain ⟨left, hvalue', hleft⟩ := expression_of_expr eof hvalue
    rw [statement]
    simp only [hk, finds_bind]
    exact ⟨some (value, left), hvalue', finds_some.mpr ⟨rfl, hleft⟩⟩
  | @Stmt.expression ts rest e he => by
    left
    obtain ⟨t, ts', rfl, hbegins⟩ := begins_of_expr he
    obtain ⟨left, he', hleft⟩ := expression_of_expr eof he
    rw [statement]
    split
    next hk => simp [hk, beginsExpression] at hbegins
    next hk => simp [hk, beginsExpression] at hbegins
    next hk => simp [hk, beginsExpression] at hbegins
    next hk => simp [hk, beginsExpression] at hbegins
    next =>
      rw [finds_bind]
      exact ⟨some (e, left), he', finds_some.mpr ⟨rfl, hleft⟩⟩

theorem statements_of_stmts (eof : Nat) {ts rest : List Token} {ss : List Statement} :
    Stmts ts ss rest → statement eof rest = .ok none →
      (∃ found, expression eof rest = .ok found) → Yields (statements eof ts) ss rest
  | .nil rest, hend, _ => by
    rw [statements, yields_bind]
    exact ⟨none, hend, yields_ok.mpr ⟨rfl, rfl⟩⟩
  | @Stmts.cons ts mid rest s ss hs hss, hend, hexpr => by
    have hmid : ∃ found, expression eof mid = .ok found := by
      cases hss with
      | nil => exact hexpr
      | cons hs' _ => exact expression_of_stmt eof hs'
    obtain ⟨afterFirst, hfirst, hafter⟩ := finds_of_safe (statement_cases eof hs) hmid
    have hrest := statements_of_stmts eof hss hend hexpr
    rw [← hafter] at hrest
    obtain ⟨left, hss', hleft⟩ := hrest
    rw [statements, yields_bind]
    refine ⟨some (s, afterFirst), hfirst, ?_⟩
    exact yields_bind.mpr ⟨(ss, left), hss', yields_ok.mpr ⟨rfl, hleft⟩⟩

end

/-- What is derived is found, if looking for one more expression behind it is safe. -/
theorem statement_of_stmt (eof : Nat) {ts rest : List Token} {s : Statement}
    (h : Stmt ts s rest) (hexpr : ∃ found, expression eof rest = .ok found) :
    Finds (statement eof ts) s rest :=
  finds_of_safe (statement_cases eof h) hexpr

end ProcLang.Parser
