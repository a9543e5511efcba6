import ProcLang.Cursor.Program
import ProcLang.Parser.Program

/-! Passing over blanks where a token is looked at comes to the same as leaving them out before. -/
namespace ProcLang

open ProcLang.Parser (Shorter NoLonger nextLoc)

/-- `Keeps ts us`: the significant tokens of `ts` are `us`. -/
def Keeps (ts us : List Token) : Prop :=
  ts.filter Token.isSignificant = us

theorem keeps_filter (tokens : List Token) :
    Keeps (tokens.filter Token.isSignificant) (tokens.filter Token.isSignificant) := by
  unfold Keeps
  rw [List.filter_filter]
  simp only [Bool.and_self]

/-- The same fault, or results that are related. -/
inductive Agree (R : α → β → Prop) : Except Fault α → Except Fault β → Prop
  | fault (fault : Fault) : Agree R (.error fault) (.error fault)
  | result {a : α} {b : β} (related : R a b) : Agree R (.ok a) (.ok b)

theorem Agree.bind {R : α → β → Prop} {S : γ → δ → Prop} {first : Except Fault α}
    {first' : Except Fault β} {next : α → Except Fault γ} {next' : β → Except Fault δ}
    (h : Agree R first first') (hnext : ∀ a b, R a b → Agree S (next a) (next' b)) :
    Agree S (first >>= next) (first' >>= next') := by
  cases h with
  | fault fault => exact .fault fault
  | result related => exact hnext _ _ related

/-- The same value, with the same significant tokens left over. -/
inductive Alike {P Q : List Token → Prop} :
    α × { rest // P rest } → α × { rest // Q rest } → Prop
  | intro {value : α} {rest : { rest // P rest }} {left : { left // Q left }}
    (keeps : Keeps rest.val left.val) : Alike (value, rest) (value, left)

/-- The same for a production that may match nothing. Then no significant token is passed over. -/
inductive AlikeMay {ts us : List Token} : Cursor.Found α ts → Option (α × Shorter us) → Prop
  | matched {value : α} {rest : Shorter ts} {left : Shorter us} (keeps : Keeps rest.val left.val) :
    AlikeMay (.matched value rest) (some (value, left))
  | nothing {rest : NoLonger ts} (keeps : Keeps rest.val us) : AlikeMay (.nothing rest) none

namespace Cursor

variable {eof : Nat} {ts us : List Token}

/-! ### Looking at a token -/

theorem skip_val (ts : List Token) : (skip ts).val = ts.dropWhile (!·.isSignificant) := rfl

theorem keeps_skip (h : Keeps ts us) : Keeps (skip ts).val us := by
  unfold Keeps at h ⊢
  rw [← h, skip_val]
  clear h
  induction ts with
  | nil => rfl
  | cons t ts ih =>
    by_cases ht : t.isSignificant
    · rw [List.dropWhile_cons_of_neg (by simpa using ht)]
    · rw [List.dropWhile_cons_of_pos (by simpa using ht), List.filter_cons_of_neg ht, ih]

theorem significant_of_skip {t : Token} {rest : List Token} (h : (skip ts).val = t :: rest) :
    t.isSignificant = true := by
  rw [skip_val] at h
  have hhead := List.head_dropWhile_not (!·.isSignificant : Token → Bool) (l := ts) (by simp [h])
  simpa [h] using hhead

/-- A cursor that looks stands at the end or at a significant token. -/
theorem peek?_cases (h : Keeps ts us) :
    ((skip ts).val = [] ∧ peek? ts = none ∧ us = []) ∨
    ∃ t behind rest, (skip ts).val = t :: behind.val ∧ peek? ts = some (t, behind) ∧
      us = t :: rest ∧ Keeps behind.val rest := by
  have hkeeps := keeps_skip h
  have hhead : ∀ t rest, (skip ts).val = t :: rest → t.isSignificant = true :=
    fun _ _ => significant_of_skip
  unfold peek?
  generalize skip ts = skipped at hkeeps hhead ⊢
  rcases skipped with ⟨_ | ⟨t, rest⟩, hle⟩
  · exact .inl ⟨rfl, rfl, hkeeps.symm⟩
  · right
    unfold Keeps at hkeeps
    rw [List.filter_cons_of_pos (hhead t rest rfl)] at hkeeps
    exact ⟨t, ⟨rest, hle⟩, rest.filter Token.isSignificant, rfl, rfl, hkeeps.symm, rfl⟩

theorem head?_skip (h : Keeps ts us) : (skip ts).val.head? = us.head? := by
  rcases peek?_cases h with ⟨hskip, -, rfl⟩ | ⟨t, behind, rest, hskip, -, rfl, -⟩
  · rw [hskip]
  · rw [hskip, List.head?_cons, List.head?_cons]

theorem nextLoc_eq (eof : Nat) (ts : List Token) :
    nextLoc eof ts = (ts.head?.map Token.loc).getD eof := by
  cases ts <;> rfl

theorem nextLoc_skip (eof : Nat) (h : Keeps ts us) :
    nextLoc eof (skip ts).val = nextLoc eof us := by
  rw [nextLoc_eq, nextLoc_eq, head?_skip h]

theorem accept_alike (kind : Token.Kind) (h : Keeps ts us) :
    AlikeMay (accept kind ts) (Parser.accept? kind us) := by
  unfold accept
  rcases peek?_cases h with ⟨-, hpeek, rfl⟩ | ⟨t, behind, rest, -, hpeek, rfl, hbehind⟩
  · rw [hpeek]
    exact .nothing (keeps_skip h)
  · rw [hpeek, Parser.accept?]
    by_cases hkind : t.kind = kind
    · simp only [hkind, if_pos]
      exact .matched hbehind
    · simp only [hkind, if_neg, not_false_eq_true]
      exact .nothing (keeps_skip h)

theorem accept_eq_nothing {kind : Token.Kind} {rest : NoLonger ts}
    (h : accept kind ts = .nothing rest) : rest = skip ts := by
  unfold accept at h
  split at h
  next =>
    split at h
    next => cases h
    next => exact (Found.nothing.inj h).symm
  next => exact (Found.nothing.inj h).symm

theorem expect_agree (kind : Token.Kind) (what : Expectation) (h : Keeps ts us) :
    Agree Alike (expect eof kind what ts) (Parser.expect eof kind what us) := by
  have halike := accept_alike kind h
  unfold expect Parser.expect
  cases haccept : accept kind ts with
  | matched t rest =>
    rw [haccept] at halike
    generalize Parser.accept? kind us = found at halike
    cases halike with
    | matched keeps => exact .result (.intro keeps)
  | nothing rest =>
    have hskip := keeps_skip h
    rw [haccept] at halike
    generalize Parser.accept? kind us = found at halike
    cases halike with
    | nothing keeps =>
      obtain rfl := accept_eq_nothing haccept
      dsimp only
      rw [nextLoc_skip eof hskip, head?_skip h]
      exact .fault _

/-! ### Types and declarations -/

theorem stars_alike (type : TypeAt) (ts us : List Token) (h : Keeps ts us) :
    Alike (stars type ts) (Parser.stars type us) := by
  rw [stars, accept]
  rcases peek?_cases h with ⟨-, hpeek, rfl⟩ | ⟨t, behind, rest, -, hpeek, rfl, hbehind⟩
  · rw [hpeek, Parser.stars]
    exact .intro (keeps_skip h)
  · rw [hpeek, Parser.stars]
    by_cases hstar : t.kind = .sign .star
    · have hlt := behind.property
      have halike := stars_alike (.pointer type t.loc) behind.val rest hbehind
      simp only [hstar, if_pos]
      generalize stars (.pointer type t.loc) behind.val = found at halike
      generalize Parser.stars (.pointer type t.loc) rest = found' at halike
      cases halike with
      | intro keeps => exact .intro keeps
    · simp only [hstar, if_neg, not_false_eq_true]
      exact .intro (keeps_skip h)
termination_by ts.length

theorem typeName_agree (h : Keeps ts us) :
    Agree Alike (typeName eof ts) (Parser.typeName eof us) := by
  refine .bind (expect_agree .name .typeName h) fun _ _ related => ?_
  cases related with
  | @intro name rest left keeps =>
    dsimp only
    cases TypeAt.ofName? name.text name.loc with
    | none => exact .fault _
    | some type =>
      have halike := stars_alike type rest.val left.val keeps
      dsimp only
      generalize stars type rest.val = found at halike
      generalize Parser.stars type left.val = found' at halike
      cases halike with
      | intro keeps => exact .result (.intro keeps)

theorem declaration_agree (h : Keeps ts us) :
    Agree Alike (declaration eof ts) (Parser.declaration eof us) := by
  refine .bind (typeName_agree h) fun _ _ related => ?_
  cases related with
  | intro keeps =>
    refine .bind (expect_agree .name .variableName keeps) fun _ _ related => ?_
    cases related with
    | intro keeps => exact .result (.intro keeps)

variable {item item' : (ts : List Token) → Parser.Must α ts}

theorem separated_agree {close : Token.Kind} {what : Expectation}
    (hitem : ∀ ts us, Keeps ts us → Agree Alike (item ts) (item' us)) (ts us : List Token)
    (h : Keeps ts us) :
    Agree Alike (separated eof close what item ts) (Parser.separated eof close what item' us) := by
  rw [separated, Parser.separated]
  refine .bind (hitem ts us h) fun _ _ related => ?_
  cases related with
  | @intro a afterItem afterItem' keeps =>
    have halike := accept_alike (.delimiter .comma) keeps
    dsimp only
    generalize hcomma : accept (.delimiter .comma) afterItem.val = found at halike
    generalize Parser.accept? (.delimiter .comma) afterItem'.val = found' at halike
    cases halike with
    | @matched _ afterComma _ keeps =>
      have hlt := Nat.lt_trans afterComma.property afterItem.property
      refine .bind (separated_agree hitem afterComma.val _ keeps) fun _ _ related => ?_
      cases related with
      | intro keeps => exact .result (.intro keeps)
    | nothing keeps =>
      refine .bind (expect_agree close what keeps) fun _ _ related => ?_
      cases related with
      | intro keeps => exact .result (.intro keeps)
termination_by ts.length

theorem closedList_agree {close : Token.Kind} {what : Expectation}
    (hitem : ∀ ts us, Keeps ts us → Agree Alike (item ts) (item' us)) (h : Keeps ts us) :
    Agree Alike (closedList eof close what item ts)
      (Parser.closedList eof close what item' us) := by
  have halike := accept_alike close h
  unfold closedList Parser.closedList
  generalize accept close ts = found at halike
  generalize Parser.accept? close us = found' at halike
  cases halike with
  | matched keeps => exact .result (.intro keeps)
  | nothing keeps =>
    rw [← bind_pure (Parser.separated eof close what item' us)]
    refine .bind (separated_agree hitem _ us keeps) fun _ _ related => ?_
    cases related with
    | intro keeps => exact .result (.intro keeps)

theorem variableList_agree (h : Keeps ts us) :
    Agree Alike (variableList eof ts) (Parser.variableList eof us) := by
  have halike := accept_alike (.delimiter .openBracket) h
  unfold variableList Parser.variableList
  generalize accept (.delimiter .openBracket) ts = found at halike
  generalize Parser.accept? (.delimiter .openBracket) us = found' at halike
  cases halike with
  | nothing keeps => exact .result (.intro keeps)
  | matched keeps =>
    refine .bind (closedList_agree (fun _ _ => declaration_agree) keeps) fun _ _ related => ?_
    cases related with
    | intro keeps => exact .result (.intro keeps)

theorem parameter_agree (h : Keeps ts us) :
    Agree Alike (parameter eof ts) (Parser.parameter eof us) := by
  have halike := accept_alike (.keyword .etcetera) h
  unfold parameter Parser.parameter
  generalize accept (.keyword .etcetera) ts = found at halike
  generalize Parser.accept? (.keyword .etcetera) us = found' at halike
  cases halike with
  | matched keeps => exact .result (.intro keeps)
  | nothing keeps =>
    refine .bind (declaration_agree keeps) fun _ _ related => ?_
    cases related with
    | intro keeps => exact .result (.intro keeps)

theorem parameters_agree (h : Keeps ts us) :
    Agree Alike (parameters eof ts) (Parser.parameters eof us) := by
  refine .bind (expect_agree (.delimiter .openParen) .parameterList h) fun _ _ related => ?_
  cases related with
  | intro keeps =>
    refine .bind (closedList_agree (fun _ _ => parameter_agree) keeps) fun _ _ related => ?_
    cases related with
    | intro keeps => exact .result (.intro keeps)

/-! ### Expressions and statements -/

theorem orElse_agree {r : May α ts} {r' : Parser.May α us} (h : Agree AlikeMay r r')
    (fault : Fault) : Agree Alike (orElse r fault) (Parser.orElse r' fault) := by
  refine .bind h fun _ _ related => ?_
  cases related with
  | matched keeps => exact .result (.intro keeps)
  | nothing _ => exact .fault fault

theorem sizeofType_agree (loc : Nat) (h : Keeps ts us) :
    Agree Alike (sizeofType eof loc ts) (Parser.sizeofType eof loc us) := by
  refine .bind (expect_agree (.delimiter .openParen) .sizeofOpen h) fun _ _ related => ?_
  cases related with
  | intro keeps =>
    refine .bind (typeName_agree keeps) fun _ _ related => ?_
    cases related with
    | @intro type _ _ keeps =>
      refine .bind (expect_agree (.delimiter .closeParen) .sizeofClose keeps) fun _ _ related => ?_
      cases related with
      | intro keeps =>
        dsimp only
        cases type.ty.size? with
        | none => exact .fault _
        | some size => exact .result (.intro keeps)

theorem operatorToken_agree (start : Nat) (h : Keeps ts us) :
    Agree Alike (operatorToken start ts) (Parser.operatorToken start us) := by
  unfold operatorToken
  rcases peek?_cases h with ⟨-, hpeek, rfl⟩ | ⟨t, behind, rest, -, hpeek, rfl, hbehind⟩
  · rw [hpeek]
    exact .fault _
  · rw [hpeek, Parser.operatorToken]
    by_cases hoperator : t.kind.isSign ∨ t.kind = .name
    · simp only [hoperator, if_pos]
      exact .result (.intro hbehind)
    · simp only [hoperator, if_neg, not_false_eq_true]
      exact .fault _

/-- One expression, given that operands behind it agree. -/
theorem expression_agree_step (h : Keeps ts us)
    (ih : ∀ ts' us' : List Token, ts'.length < ts.length → Keeps ts' us' →
      Agree Alike (expressions eof ts') (Parser.expressions eof us')) :
    Agree AlikeMay (expression eof ts) (Parser.expression eof us) := by
  rw [expression]
  rcases peek?_cases h with ⟨-, hpeek, rfl⟩ | ⟨t, behind, rest, -, hpeek, rfl, hbehind⟩
  · rw [hpeek, Parser.expression]
    exact .result (.nothing (keeps_skip h))
  · rw [hpeek, Parser.expression]
    obtain ⟨kind, text, loc⟩ := t
    cases kind with
    | name => exact .result (.matched hbehind)
    | keyword k =>
      cases k with
      | sizeof =>
        refine .bind (sizeofType_agree loc hbehind) fun _ _ related => ?_
        cases related with
        | intro keeps => exact .result (.matched keeps)
      | if_ | else_ | while_ | return_ | proc | extern_ | etcetera =>
        exact .result (.nothing (keeps_skip h))
    | delimiter d =>
      cases d with
      | openParen =>
        refine .bind (operatorToken_agree loc hbehind) fun _ _ related => ?_
        cases related with
        | @intro operator inside _ keeps =>
          have hlt := Nat.lt_trans inside.property behind.property
          refine .bind (ih inside.val _ hlt keeps) fun _ _ related => ?_
          cases related with
          | intro keeps =>
            refine .bind (expect_agree (.delimiter .closeParen) .operationClose keeps)
              fun _ _ related => ?_
            cases related with
            | intro keeps => exact .result (.matched keeps)
      | comma | closeParen | openBracket | closeBracket | openBrace | closeBrace =>
        exact .result (.nothing (keeps_skip h))
    | integer | character | boolean | text | blank _ | sign _ =>
      dsimp only
      generalize Parser.literal? _ = value
      cases value with
      | error fault => exact .fault fault
      | ok value =>
        cases value with
        | none => exact .result (.nothing (keeps_skip h))
        | some value => exact .result (.matched hbehind)

theorem expressions_agree (ts us : List Token) (h : Keeps ts us) :
    Agree Alike (expressions eof ts) (Parser.expressions eof us) := by
  rw [expressions, Parser.expressions]
  refine .bind (expression_agree_step h fun ts' us' _ => expressions_agree ts' us')
    fun _ _ related => ?_
  cases related with
  | nothing keeps => exact .result (.intro keeps)
  | @matched _ afterFirst _ keeps =>
    have hlt := afterFirst.property
    refine .bind (expressions_agree afterFirst.val _ keeps) fun _ _ related => ?_
    cases related with
    | intro keeps => exact .result (.intro keeps)
termination_by ts.length

theorem expression_agree (h : Keeps ts us) :
    Agree AlikeMay (expression eof ts) (Parser.expression eof us) :=
  expression_agree_step h fun ts' us' _ => expressions_agree ts' us'

/-- One statement, given that those behind it agree. -/
theorem statement_agree_step (h : Keeps ts us)
    (ih : ∀ ts' us' : List Token, ts'.length < ts.length → Keeps ts' us' →
      Agree AlikeMay (statement eof ts') (Parser.statement eof us'))
    (ihs : ∀ ts' us' : List Token, ts'.length < ts.length → Keeps ts' us' →
      Agree Alike (statements eof ts') (Parser.statements eof us')) :
    Agree AlikeMay (statement eof ts) (Parser.statement eof us) := by
  rw [statement]
  rcases peek?_cases h with ⟨-, hpeek, rfl⟩ | ⟨t, behind, rest, -, hpeek, rfl, hbehind⟩
  · rw [hpeek, Parser.statement]
    exact .result (.nothing (keeps_skip h))
  · rw [hpeek, Parser.statement]
    obtain ⟨kind, text, loc⟩ := t
    cases kind with
    | keyword k =>
      cases k with
      | if_ =>
        refine .bind (orElse_agree (expression_agree hbehind) (.located loc .missingCondition))
          fun _ _ related => ?_
        cases related with
        | @intro condition afterIf _ keeps =>
          have hlt := Nat.lt_trans afterIf.property behind.property
          refine .bind (orElse_agree (ih afterIf.val _ hlt keeps) (.located loc .missingThen))
            fun _ _ related => ?_
          cases related with
          | @intro yes afterYes afterYes' keeps =>
            have halike := accept_alike (.keyword .else_) keeps
            dsimp only
            generalize accept (.keyword .else_) afterYes.val = found at halike
            generalize Parser.accept? (.keyword .else_) afterYes'.val = found' at halike
            cases halike with
            | nothing keeps => exact .result (.matched keeps)
            | @matched word afterElse _ keeps =>
              have hlt' := Nat.lt_trans afterElse.property (Nat.lt_trans afterYes.property hlt)
              refine .bind (orElse_agree (ih afterElse.val _ hlt' keeps)
                (.located word.loc .missingElse)) fun _ _ related => ?_
              cases related with
              | intro keeps => exact .result (.matched keeps)
      | while_ =>
        refine .bind (orElse_agree (expression_agree hbehind) (.located loc .missingLoopCondition))
          fun _ _ related => ?_
        cases related with
        | @intro condition afterCondition _ keeps =>
          have hlt := Nat.lt_trans afterCondition.property behind.property
          refine .bind (orElse_agree (ih afterCondition.val _ hlt keeps)
            (.located loc .missingLoopBody)) fun _ _ related => ?_
          cases related with
          | intro keeps => exact .result (.matched keeps)
      | return_ =>
        refine .bind (expression_agree hbehind) fun _ _ related => ?_
        cases related with
        | nothing keeps => exact .result (.matched keeps)
        | matched keeps => exact .result (.matched keeps)
      | sizeof | else_ | proc | extern_ | etcetera =>
        refine .bind (expression_agree h) fun _ _ related => ?_
        cases related with
        | nothing keeps => exact .result (.nothing keeps)
        | matched keeps => exact .result (.matched keeps)
    | delimiter d =>
      cases d with
      | openBrace =>
        refine .bind (ihs behind.val rest behind.property hbehind) fun _ _ related => ?_
        cases related with
        | @intro body afterBody left keeps =>
          obtain ⟨left, hleft⟩ := left
          dsimp only
          rcases peek?_cases keeps with ⟨-, hpeek, heq⟩ | ⟨u, rest, left', -, hpeek, heq, hrest⟩
          · cases heq
            rw [hpeek]
            exact .fault _
          · cases heq
            rw [hpeek]
            dsimp only
            by_cases hclose : u.kind = .delimiter .closeBrace
            · simp only [hclose, if_pos]
              exact .result (.matched hrest)
            · simp only [hclose, if_neg, not_false_eq_true]
              exact .fault _
      | comma | openParen | closeParen | openBracket | closeBracket | closeBrace =>
        refine .bind (expression_agree h) fun _ _ related => ?_
        cases related with
        | nothing keeps => exact .result (.nothing keeps)
        | matched keeps => exact .result (.matched keeps)
    | integer | character | boolean | text | blank _ | sign _ | name =>
      refine .bind (expression_agree h) fun _ _ related => ?_
      cases related with
      | nothing keeps => exact .result (.nothing keeps)
      | matched keeps => exact .result (.matched keeps)

mutual

theorem statement_agree (ts us : List Token) (h : Keeps ts us) :
    Agree AlikeMay (statement eof ts) (Parser.statement eof us) :=
  statement_agree_step h (fun ts' us' _ => statement_agree ts' us')
    fun ts' us' _ => statements_agree ts' us'
termination_by 2 * ts.length

theorem statements_agree (ts us : List Token) (h : Keeps ts us) :
    Agree Alike (statements eof ts) (Parser.statements eof us) := by
  rw [statements, Parser.statements]
  refine .bind (statement_agree ts us h) fun _ _ related => ?_
  cases related with
  | nothing keeps => exact .result (.intro keeps)
  | @matched _ afterFirst _ keeps =>
    have hlt := afterFirst.property
    refine .bind (statements_agree afterFirst.val _ keeps) fun _ _ related => ?_
    cases related with
    | intro keeps => exact .result (.intro keeps)
termination_by 2 * ts.length + 1

end

/-! ### Procedures and programs -/

theorem agree_refl (r : Except Fault α) : Agree Eq r r := by
  cases r with
  | error fault => exact .fault fault
  | ok a => exact .result rfl

theorem externalProcedure_agree (h : Keeps ts us) :
    Agree Alike (externalProcedure eof ts) (Parser.externalProcedure eof us) := by
  refine .bind (typeName_agree h) fun _ _ related => ?_
  cases related with
  | intro keeps =>
    refine .bind (expect_agree .name .procedureName keeps) fun _ _ related => ?_
    cases related with
    | intro keeps =>
      refine .bind (parameters_agree keeps) fun _ _ related => ?_
      cases related with
      | intro keeps =>
        refine .bind (agree_refl _) fun _ _ related => ?_
        cases related
        exact .result (.intro keeps)

theorem internalProcedure_agree (h : Keeps ts us) :
    Agree Alike (internalProcedure eof ts) (Parser.internalProcedure eof us) := by
  refine .bind (typeName_agree h) fun _ _ related => ?_
  cases related with
  | intro keeps =>
    refine .bind (expect_agree .name .procedureName keeps) fun _ _ related => ?_
    cases related with
    | intro keeps =>
      refine .bind (parameters_agree keeps) fun _ _ related => ?_
      cases related with
      | intro keeps =>
        refine .bind (variableList_agree keeps) fun _ _ related => ?_
        cases related with
        | @intro locals afterLocals afterLocals' keeps =>
          have hagree : Agree AlikeMay (statement eof _) (Parser.statement eof _) :=
            statement_agree afterLocals.val afterLocals'.val keeps
          dsimp only
          generalize statement eof afterLocals.val = found at hagree
          generalize Parser.statement eof afterLocals'.val = found' at hagree
          cases hagree with
          | fault fault => exact .fault fault
          | result related =>
            cases related with
            | nothing keeps =>
              dsimp only [Bind.bind, Except.bind, Parser.orElse]
              rw [nextLoc_skip eof keeps]
              exact .fault _
            | matched keeps =>
              change Agree Alike (Procedure.build .. >>= _) (Procedure.build .. >>= _)
              refine .bind (agree_refl _) fun _ _ related => ?_
              cases related
              exact .result (.intro keeps)

theorem procedure_agree (h : Keeps ts us) :
    Agree AlikeMay (procedure eof ts) (Parser.procedure eof us) := by
  have hproc := accept_alike (.keyword .proc) h
  unfold procedure Parser.procedure
  generalize accept (.keyword .proc) ts = found at hproc
  generalize Parser.accept? (.keyword .proc) us = found' at hproc
  cases hproc with
  | matched keeps =>
    refine .bind (internalProcedure_agree keeps) fun _ _ related => ?_
    cases related with
    | intro keeps => exact .result (.matched keeps)
  | @nothing skipped keeps =>
    have hextern := accept_alike (.keyword .extern_) keeps
    dsimp only
    generalize accept (.keyword .extern_) skipped.val = found at hextern
    generalize Parser.accept? (.keyword .extern_) us = found' at hextern
    cases hextern with
    | matched keeps =>
      refine .bind (externalProcedure_agree keeps) fun _ _ related => ?_
      cases related with
      | intro keeps => exact .result (.matched keeps)
    | nothing keeps => exact .result (.nothing keeps)

theorem procedures_eq (ts us : List Token) (h : Keeps ts us) :
    procedures eof ts = Parser.procedures eof us := by
  have hagree : Agree AlikeMay (procedure eof ts) (Parser.procedure eof us) := procedure_agree h
  rw [procedures.eq_def, Parser.procedures.eq_def]
  generalize procedure eof ts = found at hagree
  generalize Parser.procedure eof us = found' at hagree
  cases hagree with
  | fault fault => rfl
  | result related =>
    cases related with
    | nothing keeps =>
      rcases peek?_cases keeps with ⟨-, hpeek, rfl⟩ | ⟨t, behind, rest, -, hpeek, rfl, -⟩
      · simp only [hpeek]
      · simp only [hpeek]
    | @matched p rest left keeps =>
      have hlt := rest.property
      simp only [procedures_eq rest.val left.val keeps]
termination_by ts.length

end Cursor

namespace Program

/-- Parsing does what the productions over the significant tokens do. -/
theorem parse_of_keeps (eof : Nat) {tokens ts : List Token} (h : Keeps tokens ts) :
    parse eof tokens = (do
      let found ← Traced.ofExcept (Parser.variableList eof ts)
      Traced.emit (.globals (found.1.map fun d => (d.type.ty, d.name)))
      let procedures ← Parser.procedures eof found.2.val
      Traced.ofExcept (build found.1 procedures)) := by
  have hagree : Agree Alike (Cursor.variableList eof tokens) (Parser.variableList eof ts) :=
    Cursor.variableList_agree h
  unfold parse
  generalize Cursor.variableList eof tokens = found at hagree
  generalize Parser.variableList eof ts = found' at hagree
  cases hagree with
  | fault fault => rfl
  | result related =>
    cases related with
    | @intro globals rest left keeps =>
      have hprocedures : Cursor.procedures eof rest.val = Parser.procedures eof left.val :=
        Cursor.procedures_eq rest.val left.val keeps
      change (Traced.emit _ >>= fun _ => Cursor.procedures eof rest.val >>= _) = _
      rw [hprocedures]
      rfl

/-- Blanks mean nothing to the parser, wherever they stand: without them it gives the same tree or
the same fault, by the same events. -/
theorem parse_ignores_blanks (eof : Nat) (tokens : List Token) :
    parse eof tokens = parse eof (tokens.filter Token.isSignificant) := by
  rw [parse_of_keeps eof rfl, parse_of_keeps eof (keeps_filter tokens)]

end Program

end ProcLang
