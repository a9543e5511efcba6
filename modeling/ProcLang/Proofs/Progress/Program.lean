import ProcLang.Proofs.Pass
import ProcLang.Proofs.Progress.Follows

/-! Expressions, statements and procedures make progress, so that a descent through a whole program
ends at a depth that the number of tokens bounds. -/
namespace ProcLang.Descent

variable {tokens : List Token} {pos eof depth : Nat} {ts : List Token}

theorem orElse_follows {r : Descent (Option α)} {r' : Cursor.May α ts}
    (h : Follows pos (PastMay tokens pos) r r') (fault : Fault) :
    Follows pos (Past tokens pos) (orElse r fault) (Cursor.orElse r' fault) := by
  refine .bind h ?_
  rintro _ _ _ - (⟨left, passed⟩ | _)
  · exact .value (.intro left passed)
  · exact .fault fault

theorem liftExcept_follows (outcome : Except Fault α) :
    Follows pos (fun a b stop => a = b ∧ stop = pos) (liftExcept outcome) outcome := by
  cases outcome with
  | error fault => exact .fault fault
  | ok a => exact .value ⟨rfl, rfl⟩

theorem sizeofType_follows (loc : Nat) (h : ts = tokens.drop pos) (hdepth : ts.length < depth) :
    Follows pos (Past tokens pos) (sizeofType tokens eof depth loc)
      (Cursor.sizeofType eof loc ts) := by
  refine .bind (expect_follows (.delimiter .openParen) .sizeofOpen h) ?_
  rintro _ ⟨_, inside⟩ _ - ⟨left, passed⟩
  have hlt := inside.property
  refine .bind (typeName_follows left (by omega)) ?_
  rintro type ⟨_, afterType⟩ _ hle ⟨left, -⟩
  refine .bind (expect_follows (.delimiter .closeParen) .sizeofClose left) ?_
  rintro _ ⟨_, rest⟩ _ hle' ⟨left, -⟩
  dsimp only
  cases type.ty.size? with
  | none => exact .fault _
  | some size => exact .value (.intro left (passed.onward (Nat.le_trans hle hle')))

theorem operatorToken_follows (start : Nat) (h : ts = tokens.drop pos) :
    Follows pos (Past tokens pos) (operatorToken tokens start) (Cursor.operatorToken start ts) := by
  obtain ⟨mid, hrun, hblanks, -, hcases⟩ := peek_cases h
  unfold Cursor.operatorToken
  refine .step hrun hblanks.1 ?_
  rcases hcases with ⟨hpeek, hnone⟩ | ⟨t, behind, hpeek, ht, left, passed⟩
  · rw [hpeek, hnone]
    exact .fault _
  · rw [hpeek, ht]
    dsimp only
    by_cases hoperator : t.kind.isSign ∨ t.kind = .name
    · rw [if_pos hoperator, if_pos hoperator]
      exact .step rfl (Nat.le_succ mid) (.value (.intro left passed))
    · rw [if_neg hoperator, if_neg hoperator]
      exact .fault _

/-- One expression, given that the operands behind it are gone through. -/
theorem expression_follows_step (h : ts = tokens.drop pos) (hdepth : 2 * ts.length ≤ depth)
    (ih : ∀ ts' pos', ts' = tokens.drop pos' → ts'.length < ts.length →
      Follows pos' (Along tokens) (expressions tokens eof depth) (Cursor.expressions eof ts')) :
    Follows pos (PastMay tokens pos) (expression tokens eof (depth + 1))
      (Cursor.expression eof ts) := by
  obtain ⟨mid, hrun, hblanks, hskip, hcases⟩ := peek_cases h
  rw [expression, Cursor.expression]
  refine .step hrun hblanks.1 ?_
  rcases hcases with ⟨hpeek, hnone⟩ | ⟨t, behind, hpeek, ht, left, passed⟩
  · rw [hpeek, hnone]
    exact .value (.nothing hskip hblanks)
  · rw [hpeek, ht]
    have hlt := behind.property
    obtain ⟨kind, text, loc⟩ := t
    cases kind with
    | name => exact .step rfl (Nat.le_succ mid) (.value (.matched left passed))
    | keyword k =>
      cases k with
      | sizeof =>
        refine .step rfl (Nat.le_succ mid) (.bind (sizeofType_follows loc left (by omega)) ?_)
        rintro e ⟨_, rest⟩ _ hle ⟨left, -⟩
        exact .value (.matched left (passed.onward hle))
      | if_ | else_ | while_ | return_ | proc | extern_ | etcetera =>
        exact .value (.nothing hskip hblanks)
    | delimiter d =>
      cases d with
      | openParen =>
        refine .step rfl (Nat.le_succ mid) (.bind (operatorToken_follows loc left) ?_)
        rintro operator ⟨_, inside⟩ _ hle ⟨left, -⟩
        refine .bind (ih inside.val _ left (Nat.lt_trans inside.property hlt)) ?_
        rintro operands ⟨_, afterOperands⟩ _ hle' ⟨left⟩
        refine .bind (expect_follows (.delimiter .closeParen) .operationClose left) ?_
        rintro _ ⟨_, rest⟩ _ hle'' ⟨left, -⟩
        exact .value (.matched left (passed.onward (Nat.le_trans hle (Nat.le_trans hle' hle''))))
      | comma | closeParen | openBracket | closeBracket | openBrace | closeBrace =>
        exact .value (.nothing hskip hblanks)
    | integer | character | boolean | text | blank _ | sign _ =>
      refine .bind (liftExcept_follows _) ?_
      rintro value _ _ - ⟨rfl, rfl⟩
      cases value with
      | none => exact .value (.nothing hskip hblanks)
      | some value => exact .step rfl (Nat.le_succ _) (.value (.matched left passed))

theorem expressions_follows (ts : List Token) (pos depth : Nat) (h : ts = tokens.drop pos)
    (hdepth : 2 * ts.length + 1 < depth) :
    Follows pos (Along tokens) (expressions tokens eof depth) (Cursor.expressions eof ts) := by
  obtain ⟨depth, rfl⟩ : ∃ d, depth = d + 2 := ⟨depth - 2, by omega⟩
  rw [expressions, Cursor.expressions]
  refine .bind (expression_follows_step h (by omega) fun ts' pos' h' hlt =>
    expressions_follows ts' pos' depth h' (by omega)) ?_
  intro _ _ mid _ related
  cases related with
  | nothing left _ => exact .value (.intro left)
  | @matched e afterFirst _ left _ =>
    have hlt := afterFirst.property
    refine .bind (expressions_follows afterFirst.val mid (depth + 1) left (by omega)) ?_
    rintro es ⟨_, rest⟩ _ - ⟨left⟩
    exact .value (.intro left)
termination_by ts.length

theorem expression_follows (h : ts = tokens.drop pos) (hdepth : 2 * ts.length < depth) :
    Follows pos (PastMay tokens pos) (expression tokens eof depth) (Cursor.expression eof ts) := by
  obtain ⟨depth, rfl⟩ : ∃ d, depth = d + 1 := ⟨depth - 1, by omega⟩
  exact expression_follows_step h (by omega) fun ts' pos' h' hlt =>
    expressions_follows ts' pos' depth h' (by omega)

/-- Any other statement is an expression, which is looked for from the same place. -/
theorem expressionStatement_follows (eof : Nat) (h : ts = tokens.drop pos)
    (hdepth : 2 * ts.length < depth) :
    Follows pos (PastMay tokens pos)
      (peek tokens >>= fun _ => do
        let e ← expression tokens eof depth
        return e.map Statement.expression)
      (do
        match ← Cursor.expression eof ts with
        | .nothing rest => return .nothing rest
        | .matched e rest => return .matched (.expression e) rest) := by
  obtain ⟨mid, hrun, -⟩ := peek_cases h
  have hsame : (expression tokens eof depth).run.run mid =
      (expression tokens eof depth).run.run pos := by
    obtain ⟨depth, rfl⟩ : ∃ d, depth = d + 1 := ⟨depth - 1, by omega⟩
    rw [expression, Follows.run_bind _ hrun, Follows.run_bind _ (peek_again hrun)]
  have hhere : (peek tokens >>= fun _ => expression tokens eof depth >>= fun e =>
      pure (e.map Statement.expression)).run.run pos =
      (expression tokens eof depth >>= fun e => pure (e.map Statement.expression)).run.run pos := by
    rw [Follows.run_bind _ hrun]
    exact Follows.run_bind_congr _ hsame
  refine .congr (.bind (expression_follows h hdepth) ?_) hhere
  rintro _ _ _ - (⟨left, passed⟩ | ⟨left, blank⟩)
  · exact .value (.matched left passed)
  · exact .value (.nothing left blank)

/-- One statement, given that those behind it are gone through. -/
theorem statement_follows_step (h : ts = tokens.drop pos) (hdepth : 2 * ts.length < depth)
    (ih : ∀ ts' pos', ts' = tokens.drop pos' → ts'.length < ts.length →
      Follows pos' (PastMay tokens pos') (statement tokens eof depth) (Cursor.statement eof ts'))
    (ihs : ∀ ts' pos', ts' = tokens.drop pos' → ts'.length < ts.length →
      Follows pos' (Along tokens) (statements tokens eof depth) (Cursor.statements eof ts')) :
    Follows pos (PastMay tokens pos) (statement tokens eof (depth + 1))
      (Cursor.statement eof ts) := by
  obtain ⟨mid, hrun, hblanks, hskip, hcases⟩ := peek_cases h
  rw [statement, Cursor.statement]
  rcases hcases with ⟨hpeek, hnone⟩ | ⟨t, behind, hpeek, ht, left, passed⟩
  · refine .step hrun hblanks.1 ?_
    rw [hpeek, hnone]
    exact .value (.nothing hskip hblanks)
  · rw [hpeek]
    have hother := expressionStatement_follows eof h hdepth
    have hlt := behind.property
    obtain ⟨kind, text, loc⟩ := t
    cases kind with
    | keyword k =>
      cases k with
      | if_ =>
        refine .step hrun hblanks.1 ?_
        rw [ht]
        refine .step rfl (Nat.le_succ mid) (.bind (orElse_follows
          (expression_follows left (by omega)) (.located loc .missingCondition)) ?_)
        rintro condition ⟨_, afterIf⟩ _ hle ⟨left, -⟩
        have hlt' := Nat.lt_trans afterIf.property hlt
        refine .bind (orElse_follows (ih afterIf.val _ left hlt') (.located loc .missingThen)) ?_
        rintro yes ⟨_, afterYes⟩ _ hle' ⟨left, -⟩
        have hlt'' := Nat.lt_trans afterYes.property hlt'
        dsimp only
        rcases consume_cases (.keyword .else_) left with
          ⟨word, afterElse, mid, haccept, hrun, left, helse⟩ |
          ⟨rest, mid, haccept, hrun, left, hrest⟩
        · rw [haccept]
          refine .step hrun helse.le (.bind (orElse_follows (ih afterElse.val _ left
            (Nat.lt_trans afterElse.property hlt'')) (.located word.loc .missingElse)) ?_)
          rintro no ⟨_, rest⟩ _ hle'' ⟨left, -⟩
          exact .value (.matched left (passed.onward (Nat.le_trans hle (Nat.le_trans hle'
            (Nat.le_trans helse.le hle'')))))
        · rw [haccept]
          exact .step hrun hrest.1 (.value (.matched left
            (passed.onward (Nat.le_trans hle (Nat.le_trans hle' hrest.1)))))
      | while_ =>
        refine .step hrun hblanks.1 ?_
        rw [ht]
        refine .step rfl (Nat.le_succ mid) (.bind (orElse_follows
          (expression_follows left (by omega)) (.located loc .missingLoopCondition)) ?_)
        rintro condition ⟨_, afterCondition⟩ _ hle ⟨left, -⟩
        have hlt' := Nat.lt_trans afterCondition.property hlt
        refine .bind (orElse_follows (ih afterCondition.val _ left hlt')
          (.located loc .missingLoopBody)) ?_
        rintro body ⟨_, rest⟩ _ hle' ⟨left, -⟩
        exact .value (.matched left (passed.onward (Nat.le_trans hle hle')))
      | return_ =>
        refine .step hrun hblanks.1 ?_
        rw [ht]
        refine .step rfl (Nat.le_succ mid) (.bind (expression_follows left (by omega)) ?_)
        rintro _ _ _ hle (⟨left, -⟩ | ⟨left, -⟩)
        · exact .value (.matched left (passed.onward hle))
        · exact .value (.matched left (passed.onward hle))
      | sizeof | else_ | proc | extern_ | etcetera =>
        exact hother.congr (by rw [Follows.run_bind _ hrun, Follows.run_bind _ hrun, ht])
    | delimiter d =>
      cases d with
      | openBrace =>
        refine .step hrun hblanks.1 ?_
        rw [ht]
        refine .step rfl (Nat.le_succ mid) (.bind (ihs behind.val _ left hlt) ?_)
        rintro body ⟨_, afterBody⟩ _ hle ⟨left⟩
        obtain ⟨next, hrun, hblanks', -, hcases⟩ := peek_cases left
        dsimp only
        refine .step hrun hblanks'.1 ?_
        rcases hcases with ⟨hpeek, hnone⟩ | ⟨u, rest, hpeek, hu, left, -⟩
        · rw [hpeek, hnone]
          exact .fault _
        · rw [hpeek, hu]
          dsimp only
          by_cases hclose : u.kind = .delimiter .closeBrace
          · rw [if_pos hclose, if_pos hclose]
            exact .step rfl (Nat.le_succ next) (.value (.matched left (passed.onward
              (Nat.le_trans hle (Nat.le_trans hblanks'.1 (Nat.le_succ next))))))
          · rw [if_neg hclose, if_neg hclose]
            exact .fault _
      | comma | openParen | closeParen | openBracket | closeBracket | closeBrace =>
        exact hother.congr (by rw [Follows.run_bind _ hrun, Follows.run_bind _ hrun, ht])
    | integer | character | boolean | text | blank _ | sign _ | name =>
      exact hother.congr (by rw [Follows.run_bind _ hrun, Follows.run_bind _ hrun, ht])

mutual

theorem statement_follows (ts : List Token) (pos depth : Nat) (h : ts = tokens.drop pos)
    (hdepth : 2 * ts.length + 1 < depth) :
    Follows pos (PastMay tokens pos) (statement tokens eof depth) (Cursor.statement eof ts) := by
  obtain ⟨depth, rfl⟩ : ∃ d, depth = d + 1 := ⟨depth - 1, by omega⟩
  exact statement_follows_step h (by omega)
    (fun ts' pos' h' hlt => statement_follows ts' pos' depth h' (by omega))
    fun ts' pos' h' hlt => statements_follows ts' pos' depth h' (by omega)
termination_by 2 * ts.length

theorem statements_follows (ts : List Token) (pos depth : Nat) (h : ts = tokens.drop pos)
    (hdepth : 2 * ts.length + 2 < depth) :
    Follows pos (Along tokens) (statements tokens eof depth) (Cursor.statements eof ts) := by
  obtain ⟨depth, rfl⟩ : ∃ d, depth = d + 1 := ⟨depth - 1, by omega⟩
  rw [statements, Cursor.statements]
  refine .bind (statement_follows ts pos depth h (by omega)) ?_
  intro _ _ mid _ related
  cases related with
  | nothing left _ => exact .value (.intro left)
  | @matched s afterFirst _ left _ =>
    have hlt := afterFirst.property
    refine .bind (statements_follows afterFirst.val mid depth left (by omega)) ?_
    rintro ss ⟨_, rest⟩ _ - ⟨left⟩
    exact .value (.intro left)
termination_by 2 * ts.length + 1

end

/-! ### Procedures and programs -/

theorem externalProcedure_follows (h : ts = tokens.drop pos) (hdepth : ts.length < depth) :
    Follows pos (Past tokens pos) (externalProcedure tokens eof depth)
      (Cursor.externalProcedure eof ts) := by
  refine .bind (typeName_follows h hdepth) ?_
  rintro returns ⟨_, afterType⟩ _ - ⟨left, passed⟩
  have htype := afterType.property
  refine .bind (expect_follows .name .procedureName left) ?_
  rintro name ⟨_, afterName⟩ _ hle ⟨left, -⟩
  have hname := afterName.property
  refine .bind (parameters_follows left (by omega)) ?_
  rintro ps ⟨_, rest⟩ _ hle' ⟨left, -⟩
  refine .last (liftExcept_follows _) ?_
  rintro p _ _ - ⟨rfl, rfl⟩
  exact .value (.intro left (passed.onward (Nat.le_trans hle hle')))

theorem internalProcedure_follows (h : ts = tokens.drop pos) (hdepth : 2 * ts.length < depth) :
    Follows pos (Past tokens pos) (internalProcedure tokens eof depth)
      (Cursor.internalProcedure eof ts) := by
  refine .bind (typeName_follows h (by omega)) ?_
  rintro returns ⟨_, afterType⟩ _ - ⟨left, passed⟩
  have htype := afterType.property
  refine .bind (expect_follows .name .procedureName left) ?_
  rintro name ⟨_, afterName⟩ _ hle ⟨left, -⟩
  have hname := afterName.property
  refine .bind (parameters_follows left (by omega)) ?_
  rintro ps ⟨_, afterParameters⟩ _ hle' ⟨left, -⟩
  have hparameters := afterParameters.property
  refine .bind (variableList_follows left (by omega)) ?_
  rintro locals ⟨_, afterLocals⟩ _ hle'' ⟨left⟩
  have hlocals := afterLocals.property
  refine .bind (statement_follows afterLocals.val _ depth left (by omega)) ?_
  intro _ _ _ hbody related
  cases related with
  | nothing left _ =>
    obtain ⟨stop, hrun, hstop, -⟩ := nextLoc_run eof left
    exact .step hrun hstop (.fault _)
  | matched left _ =>
    refine .last (liftExcept_follows _) ?_
    rintro p _ _ - ⟨rfl, rfl⟩
    exact .value (.intro left (passed.onward (by omega)))

theorem procedure_follows (h : ts = tokens.drop pos) (hdepth : 2 * ts.length < depth) :
    Follows pos (PastMay tokens pos) (procedure tokens eof depth) (Cursor.procedure eof ts) := by
  rw [procedure, Cursor.procedure]
  rcases consume_cases (.keyword .proc) h with
    ⟨_, inside, mid, haccept, hrun, left, passed⟩ | ⟨skipped, mid, haccept, hrun, left, hblanks⟩
  · rw [haccept]
    have hlt := inside.property
    refine .step hrun passed.le (.bind (internalProcedure_follows left (by omega)) ?_)
    rintro p ⟨_, rest⟩ _ hle ⟨left, -⟩
    exact .value (.matched left (passed.onward hle))
  · rw [haccept]
    refine .step hrun hblanks.1 ?_
    have hskipped := skipped.property
    dsimp only
    rcases consume_cases (.keyword .extern_) left with
      ⟨_, inside, mid, haccept, hrun, left, passed⟩ | ⟨rest, mid, haccept, hrun, left, hblanks'⟩
    · rw [haccept]
      have hlt := inside.property
      refine .step hrun passed.le (.bind (externalProcedure_follows left (by omega)) ?_)
      rintro p ⟨_, rest⟩ _ hle ⟨left, -⟩
      exact .value (.matched left ((passed.onward hle).before hblanks.1))
    · rw [haccept]
      exact .step hrun hblanks'.1 (.value (.nothing left (hblanks.trans hblanks')))

/-- The loop over the procedures, without its events. -/
theorem result_procedures (eof : Nat) (ts : List Token) :
    (Cursor.procedures eof ts).result = (do
      match ← Cursor.procedure eof ts with
      | .nothing rest =>
        match Cursor.peek? rest.val with
        | none => return []
        | some (t, _) => .error (.located t.loc (.unexpectedToken (Token.describe (some t))))
      | .matched p rest => return p :: (← (Cursor.procedures eof rest.val).result)) := by
  rw [Cursor.procedures]
  cases Cursor.procedure eof ts with
  | error fault => rfl
  | ok found =>
    cases found with
    | nothing rest =>
      rw [Outcome.ok_bind]
      dsimp only
      cases Cursor.peek? rest.val <;> rfl
    | matched p rest =>
      rw [Outcome.ok_bind]
      dsimp only
      rw [Traced.bind_result, Traced.bind_result]
      rfl

theorem procedures_follows (ts : List Token) (pos depth : Nat) (h : ts = tokens.drop pos)
    (hdepth : 2 * ts.length + 1 < depth) :
    Follows pos (fun a b stop => a = b ∧ tokens.length ≤ stop) (procedures tokens eof depth)
      (Cursor.procedures eof ts).result := by
  obtain ⟨depth, rfl⟩ : ∃ d, depth = d + 1 := ⟨depth - 1, by omega⟩
  rw [procedures, result_procedures]
  refine .bind (procedure_follows h (by omega)) ?_
  intro _ _ mid _ related
  cases related with
  | nothing left _ =>
    obtain ⟨stop, hrun, hblanks, -, hcases⟩ := peek_cases left
    refine .step hrun hblanks.1 ?_
    dsimp only
    rcases hcases with ⟨hpeek, hnone⟩ | ⟨t, behind, hpeek, ht, -, -⟩
    · rw [hpeek, hnone]
      exact .value ⟨rfl, List.getElem?_eq_none_iff.mp hnone⟩
    · rw [hpeek, ht]
      exact .fault _
  | @matched p rest _ left _ =>
    have hlt := rest.property
    refine .bind (procedures_follows rest.val mid depth left (by omega)) ?_
    rintro ps _ _ - ⟨rfl, hend⟩
    exact .value ⟨rfl, hend⟩
termination_by ts.length

theorem program_follows (hdepth : 2 * tokens.length + 1 < depth) :
    Follows 0 (fun a b stop => a = b ∧ tokens.length ≤ stop) (program tokens eof depth)
      (Program.parse eof tokens).result := by
  rw [Program.parse, Traced.bind_result]
  refine .bind (variableList_follows rfl (by omega)) ?_
  rintro globals ⟨_, rest⟩ _ - ⟨left⟩
  have hle := rest.property
  dsimp only
  rw [Traced.bind_result, Traced.emit, Outcome.ok_bind, Traced.bind_result]
  refine .bind (procedures_follows rest.val _ depth left (by omega)) ?_
  rintro ps _ _ - ⟨rfl, hend⟩
  rw [← bind_pure (Traced.ofExcept _).result]
  refine .last (liftExcept_follows _) ?_
  rintro p _ _ - ⟨rfl, rfl⟩
  exact .value ⟨rfl, hend⟩

/-- From every place in every list of tokens, all productions end, with the outcome of the ones that
read the tokens left over, no further back than they started, and no deeper than the number of these
tokens allows. A procedure, statement or expression that is found takes the cursor past a
significant token, and one that is not there over blanks only. -/
theorem productions_progress (tokens : List Token) (eof pos extra : Nat) :
    let ts := tokens.drop pos
    let depth := 2 * ts.length + 3 + extra
    (Follows pos (PastMay tokens pos) (procedure tokens eof depth) (Cursor.procedure eof ts) ∧
      Follows pos (PastMay tokens pos) (statement tokens eof depth) (Cursor.statement eof ts) ∧
      Follows pos (PastMay tokens pos) (expression tokens eof depth) (Cursor.expression eof ts)) ∧
    (Follows pos (Along tokens) (variableList tokens eof depth) (Cursor.variableList eof ts) ∧
      Follows pos (Past tokens pos) (parameters tokens eof depth) (Cursor.parameters eof ts) ∧
      Follows pos (Past tokens pos) (typeName tokens eof depth) (Cursor.typeName eof ts)) ∧
    (Follows pos (Past tokens pos) (internalProcedure tokens eof depth)
        (Cursor.internalProcedure eof ts) ∧
      Follows pos (Past tokens pos) (externalProcedure tokens eof depth)
        (Cursor.externalProcedure eof ts) ∧
      Follows pos (Past tokens pos) (declaration tokens eof depth) (Cursor.declaration eof ts) ∧
      Follows pos (Past tokens pos) (parameter tokens eof depth) (Cursor.parameter eof ts) ∧
      (∀ loc, Follows pos (Past tokens pos) (sizeofType tokens eof depth loc)
        (Cursor.sizeofType eof loc ts)) ∧
      (∀ start, Follows pos (Past tokens pos) (operatorToken tokens start)
        (Cursor.operatorToken start ts)) ∧
      ∀ kind what, Follows pos (Past tokens pos) (expect tokens eof kind what)
        (Cursor.expect eof kind what ts)) ∧
    (Follows pos (fun a b stop => a = b ∧ tokens.length ≤ stop) (procedures tokens eof depth)
        (Cursor.procedures eof ts).result ∧
      Follows pos (Along tokens) (statements tokens eof depth) (Cursor.statements eof ts) ∧
      Follows pos (Along tokens) (expressions tokens eof depth) (Cursor.expressions eof ts) ∧
      (∀ close what, Follows pos (Past tokens pos)
        (separated tokens eof close what (declaration tokens eof depth) depth)
        (Cursor.separated eof close what (Cursor.declaration eof) ts)) ∧
      (∀ close what, Follows pos (Past tokens pos)
        (separated tokens eof close what (parameter tokens eof depth) depth)
        (Cursor.separated eof close what (Cursor.parameter eof) ts)) ∧
      ∀ type, Follows pos (Along tokens) (stars tokens depth type)
        (.ok (Cursor.stars type ts))) ∧
    Follows 0 (fun a b stop => a = b ∧ tokens.length ≤ stop)
      (program tokens eof (2 * tokens.length + 3 + extra)) (Program.parse eof tokens).result := by
  intro ts depth
  have h : ts = tokens.drop pos := rfl
  have hdepth : 2 * ts.length + 3 ≤ depth := Nat.le_add_right _ extra
  have hlt : ts.length < depth := by omega
  refine ⟨⟨procedure_follows h (by omega), statement_follows ts pos depth h (by omega),
    expression_follows h (by omega)⟩, ⟨variableList_follows h hlt, parameters_follows h hlt,
    typeName_follows h hlt⟩, ⟨internalProcedure_follows h (by omega),
    externalProcedure_follows h hlt, declaration_follows h hlt, parameter_follows h hlt,
    fun loc => sizeofType_follows loc h hlt, fun start => operatorToken_follows start h,
    fun kind what => expect_follows kind what h⟩, ⟨procedures_follows ts pos depth h (by omega),
    statements_follows ts pos depth h (by omega), expressions_follows ts pos depth h (by omega),
    fun _ _ => separated_follows (fun _ _ => declaration_follows) h hlt hlt,
    fun _ _ => separated_follows (fun _ _ => parameter_follows) h hlt hlt,
    fun type => stars_follows type h hlt⟩, program_follows (by omega)⟩

end ProcLang.Descent
