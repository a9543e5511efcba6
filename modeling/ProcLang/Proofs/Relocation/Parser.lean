import ProcLang.Proofs.Blanks
import ProcLang.Proofs.Relocation.Basic

/-! Tokens at other positions are parsed into the same trees at other positions. -/
namespace ProcLang

open Outcome

namespace Parser

variable (f : Nat → Nat)

def Shorter.relocate {ts : List Token} (r : Shorter ts) : Shorter (ts.map (Token.relocate f)) :=
  ⟨r.val.map (Token.relocate f), by simpa using r.property⟩

def NoLonger.relocate {ts : List Token} (r : NoLonger ts) : NoLonger (ts.map (Token.relocate f)) :=
  ⟨r.val.map (Token.relocate f), by simpa using r.property⟩

/-- Relocates what a production gives and what it leaves over. -/
def Must.relocate (g : α → α) {ts : List Token} (r : Must α ts) :
    Must α (ts.map (Token.relocate f)) :=
  Outcome.relocate f (Prod.map g (Shorter.relocate f)) r

def May.relocate (g : α → α) {ts : List Token} (r : May α ts) :
    May α (ts.map (Token.relocate f)) :=
  Outcome.relocate f (Option.map (Prod.map g (Shorter.relocate f))) r

/-- The same for a production that may take no token. -/
def relocateMany (g : α → α) {ts : List Token} (r : Except Fault (α × NoLonger ts)) :
    Except Fault (α × NoLonger (ts.map (Token.relocate f))) :=
  Outcome.relocate f (Prod.map g (NoLonger.relocate f)) r

variable {f} {eof : Nat} {ts : List Token}

theorem orElse_relocate {g : α → α} {r : May α ts} {r' : May α (ts.map (Token.relocate f))}
    (h : r' = r.relocate f g) (fault : Fault) :
    orElse r' (fault.relocate f) = (orElse r fault).relocate f g := by
  refine bind_relocate h fun found => ?_
  cases found <;> rfl

/-- Kinds of tokens are asked for, and relocation keeps them. -/
theorem ite_relocate {p : Prop} [Decidable p] {g : α → β} {yes no : α} {yes' no' : β}
    (hyes : yes' = g yes) (hno : no' = g no) :
    (if p then yes' else no') = g (if p then yes else no) := by
  rw [hyes, hno, apply_ite g]

theorem nextLoc_relocate (ts : List Token) :
    nextLoc (f eof) (ts.map (Token.relocate f)) = f (nextLoc eof ts) := by
  cases ts <;> rfl

theorem describe_relocate (t : Option Token) :
    Token.describe (t.map (Token.relocate f)) = Token.describe t := by
  cases t <;> rfl

theorem accept?_relocate (kind : Token.Kind) (ts : List Token) :
    accept? kind (ts.map (Token.relocate f)) =
      (accept? kind ts).map (Prod.map (Token.relocate f) (Shorter.relocate f)) := by
  cases ts with
  | nil => rfl
  | cons t ts =>
    change accept? kind (t.relocate f :: ts.map (Token.relocate f)) = _
    rw [accept?, accept?]
    exact ite_relocate rfl rfl

theorem expect_relocate (kind : Token.Kind) (what : Expectation) (ts : List Token) :
    expect (f eof) kind what (ts.map (Token.relocate f)) =
      (expect eof kind what ts).relocate f (Token.relocate f) := by
  unfold expect
  rw [accept?_relocate]
  cases accept? kind ts with
  | some found => rfl
  | none =>
    dsimp only [Option.map_none]
    rw [nextLoc_relocate, List.head?_map, describe_relocate]
    rfl

theorem stars_relocate (type : TypeAt) (ts : List Token) :
    stars (type.relocate f) (ts.map (Token.relocate f)) =
      Prod.map (TypeAt.relocate f) (NoLonger.relocate f) (stars type ts) := by
  induction ts generalizing type with
  | nil => rfl
  | cons t ts ih =>
    have htail : stars (.pointer (type.relocate f) (t.relocate f).loc)
        (ts.map (Token.relocate f)) = _ := ih (.pointer type t.loc)
    change stars (type.relocate f) (t.relocate f :: ts.map (Token.relocate f)) = _
    rw [stars, stars, htail]
    exact ite_relocate rfl rfl

theorem ofName?_relocate (name : String) (loc : Nat) :
    TypeAt.ofName? name (f loc) = (TypeAt.ofName? name loc).map (TypeAt.relocate f) := by
  unfold TypeAt.ofName?
  split <;> rfl

theorem typeName_relocate (ts : List Token) :
    typeName (f eof) (ts.map (Token.relocate f)) =
      (typeName eof ts).relocate f (TypeAt.relocate f) := by
  refine bind_relocate (expect_relocate .name .typeName ts) fun found => ?_
  obtain ⟨name, rest⟩ := found
  have htype : TypeAt.ofName? (name.relocate f).text (name.relocate f).loc = _ :=
    ofName?_relocate (f := f) name.text name.loc
  dsimp only [Prod.map]
  rw [htype]
  cases TypeAt.ofName? name.text name.loc with
  | none => rfl
  | some type =>
    let taken (left : TypeAt × NoLonger (rest.relocate f).val) :
        Must TypeAt (ts.map (Token.relocate f)) :=
      .ok (left.1, (rest.relocate f).weaken left.2)
    exact congrArg taken (stars_relocate type rest.val)

theorem declaration_relocate (ts : List Token) :
    declaration (f eof) (ts.map (Token.relocate f)) =
      (declaration eof ts).relocate f (Declaration.relocate f) := by
  refine bind_relocate (typeName_relocate ts) fun found => ?_
  obtain ⟨type, afterType⟩ := found
  exact bind_relocate (expect_relocate .name .variableName afterType.val) fun _ => rfl

/-- Items of a list, up to what closes it. -/
theorem separated_relocate {g : α → α} {close : Token.Kind} {what : Expectation}
    {item item' : (ts : List Token) → Must α ts}
    (h : ∀ ts, item' (ts.map (Token.relocate f)) = (item ts).relocate f g) (ts : List Token) :
    separated (f eof) close what item' (ts.map (Token.relocate f)) =
      (separated eof close what item ts).relocate f (List.map g) := by
  rw [separated, separated]
  refine bind_relocate (h ts) fun found => ?_
  obtain ⟨a, afterItem⟩ := found
  have hcomma : accept? (.delimiter .comma) (afterItem.relocate f).val = _ :=
    accept?_relocate (.delimiter .comma) afterItem.val
  dsimp only [Prod.map]
  rw [hcomma]
  cases accept? (.delimiter .comma) afterItem.val with
  | some found =>
    obtain ⟨comma, afterComma⟩ := found
    have hlt := (afterItem.trans afterComma).property
    exact bind_relocate (separated_relocate h afterComma.val) fun _ => rfl
  | none => exact bind_relocate (expect_relocate close what afterItem.val) fun _ => rfl
termination_by ts.length

theorem closedList_relocate {g : α → α} {close : Token.Kind} {what : Expectation}
    {item item' : (ts : List Token) → Must α ts}
    (h : ∀ ts, item' (ts.map (Token.relocate f)) = (item ts).relocate f g) (ts : List Token) :
    closedList (f eof) close what item' (ts.map (Token.relocate f)) =
      (closedList eof close what item ts).relocate f (List.map g) := by
  unfold closedList
  rw [accept?_relocate]
  cases accept? close ts with
  | some found => rfl
  | none => exact separated_relocate h ts

theorem variableList_relocate (ts : List Token) :
    variableList (f eof) (ts.map (Token.relocate f)) =
      relocateMany f (List.map (Declaration.relocate f)) (variableList eof ts) := by
  unfold variableList
  rw [accept?_relocate]
  cases accept? (.delimiter .openBracket) ts with
  | none => rfl
  | some found =>
    obtain ⟨opening, inside⟩ := found
    exact bind_relocate (closedList_relocate declaration_relocate inside.val) fun _ => rfl

theorem parameter_relocate (ts : List Token) :
    parameter (f eof) (ts.map (Token.relocate f)) =
      (parameter eof ts).relocate f (Parameter.relocate f) := by
  unfold parameter
  rw [accept?_relocate]
  cases accept? (.keyword .etcetera) ts with
  | some found => rfl
  | none => exact bind_relocate (declaration_relocate ts) fun _ => rfl

theorem parameters_relocate (ts : List Token) :
    parameters (f eof) (ts.map (Token.relocate f)) =
      (parameters eof ts).relocate f (List.map (Parameter.relocate f)) := by
  refine bind_relocate (expect_relocate (.delimiter .openParen) .parameterList ts)
    fun found => ?_
  obtain ⟨_, inside⟩ := found
  exact bind_relocate (closedList_relocate parameter_relocate inside.val) fun _ => rfl

theorem sizeofType_relocate (loc : Nat) (ts : List Token) :
    sizeofType (f eof) (f loc) (ts.map (Token.relocate f)) =
      (sizeofType eof loc ts).relocate f (Expression.relocate f) := by
  refine bind_relocate (expect_relocate (.delimiter .openParen) .sizeofOpen ts)
    fun found => ?_
  obtain ⟨_, inside⟩ := found
  refine bind_relocate (typeName_relocate inside.val) fun found => ?_
  obtain ⟨type, afterType⟩ := found
  refine bind_relocate (expect_relocate (.delimiter .closeParen) .sizeofClose afterType.val)
    fun found => ?_
  obtain ⟨_, rest⟩ := found
  dsimp only [Prod.map]
  rw [TypeAt.ty_relocate, TypeAt.loc_relocate]
  cases type.ty.size? <;> rfl

theorem literal?_relocate (t : Token) :
    literal? (t.relocate f) = Outcome.relocate f id (literal? t) := by
  obtain ⟨kind, text, loc⟩ := t
  cases kind with
  | integer =>
    simp only [literal?, Token.relocate]
    cases Text.int64? text <;> rfl
  | blank _ | delimiter _ | sign _ | character | boolean | text | keyword _ | name => rfl

theorem operatorToken_relocate (start : Nat) (ts : List Token) :
    operatorToken (f start) (ts.map (Token.relocate f)) =
      (operatorToken start ts).relocate f (Token.relocate f) := by
  cases ts with
  | nil => rfl
  | cons t ts =>
    change operatorToken (f start) (t.relocate f :: ts.map (Token.relocate f)) = _
    rw [operatorToken, operatorToken]
    exact ite_relocate rfl rfl

/-- One expression, given that shorter rows of operands are relocated. -/
theorem expression_relocate_step (ts : List Token)
    (ih : ∀ ts' : List Token, ts'.length < ts.length →
      expressions (f eof) (ts'.map (Token.relocate f)) =
        relocateMany f (List.map (Expression.relocate f)) (expressions eof ts')) :
    expression (f eof) (ts.map (Token.relocate f)) =
      (expression eof ts).relocate f (Expression.relocate f) := by
  cases ts with
  | nil =>
    change expression (f eof) [] = _
    rw [expression, expression]
    rfl
  | cons t ts =>
    change expression (f eof) (t.relocate f :: ts.map (Token.relocate f)) = _
    obtain ⟨kind, text, loc⟩ := t
    rw [expression, expression]
    cases kind with
    | name => rfl
    | keyword k =>
      cases k with
      | sizeof => exact bind_relocate (sizeofType_relocate loc ts) fun _ => rfl
      | if_ | else_ | while_ | return_ | proc | extern_ | etcetera => rfl
    | delimiter d =>
      cases d with
      | openParen =>
        refine bind_relocate (operatorToken_relocate loc ts) fun found => ?_
        obtain ⟨operator, inside⟩ := found
        have hlt := Nat.lt_succ_of_lt inside.property
        refine bind_relocate (ih inside.val hlt) fun found => ?_
        obtain ⟨operands, afterOperands⟩ := found
        refine bind_relocate
          (expect_relocate (.delimiter .closeParen) .operationClose afterOperands.val)
          fun found => ?_
        obtain ⟨_, rest⟩ := found
        dsimp only [Prod.map]
        rw [← Expression.relocateAll_eq_map]
        rfl
      | comma | closeParen | openBracket | closeBracket | openBrace | closeBrace => rfl
    | integer | character | boolean | text | blank _ | sign _ =>
      refine bind_relocate (literal?_relocate _) fun value => ?_
      cases value <;> rfl

theorem expressions_relocate (ts : List Token) :
    expressions (f eof) (ts.map (Token.relocate f)) =
      relocateMany f (List.map (Expression.relocate f)) (expressions eof ts) := by
  rw [expressions, expressions]
  refine bind_relocate (expression_relocate_step ts fun ts' hlt => expressions_relocate ts')
    fun found => ?_
  cases found with
  | none => rfl
  | some found =>
    obtain ⟨e, afterFirst⟩ := found
    have hlt := afterFirst.property
    exact bind_relocate (expressions_relocate afterFirst.val) fun _ => rfl
termination_by ts.length

theorem expression_relocate (ts : List Token) :
    expression (f eof) (ts.map (Token.relocate f)) =
      (expression eof ts).relocate f (Expression.relocate f) :=
  expression_relocate_step ts fun ts' _ => expressions_relocate ts'

/-- One statement, given that shorter ones and shorter rows of them are relocated. -/
theorem statement_relocate_step (ts : List Token)
    (ih : ∀ ts' : List Token, ts'.length < ts.length →
      statement (f eof) (ts'.map (Token.relocate f)) =
        (statement eof ts').relocate f (Statement.relocate f))
    (ihs : ∀ ts' : List Token, ts'.length < ts.length →
      statements (f eof) (ts'.map (Token.relocate f)) =
        relocateMany f (List.map (Statement.relocate f)) (statements eof ts')) :
    statement (f eof) (ts.map (Token.relocate f)) =
      (statement eof ts).relocate f (Statement.relocate f) := by
  cases ts with
  | nil =>
    change statement (f eof) [] = _
    rw [statement, statement]
    rfl
  | cons t ts =>
    have hexpression : expression (f eof) (t.relocate f :: ts.map (Token.relocate f)) = _ :=
      expression_relocate (t :: ts)
    change statement (f eof) (t.relocate f :: ts.map (Token.relocate f)) = _
    obtain ⟨kind, text, loc⟩ := t
    rw [statement, statement]
    cases kind with
    | keyword k =>
      cases k with
      | if_ =>
        refine bind_relocate
          (orElse_relocate (expression_relocate ts) (.located loc .missingCondition))
          fun found => ?_
        obtain ⟨condition, afterIf⟩ := found
        have hlt := Nat.lt_succ_of_lt afterIf.property
        refine bind_relocate (orElse_relocate (ih afterIf.val hlt) (.located loc .missingThen))
          fun found => ?_
        obtain ⟨yes, afterYes⟩ := found
        have helse : accept? (.keyword .else_) (afterYes.relocate f).val = _ :=
          accept?_relocate (.keyword .else_) afterYes.val
        dsimp only [Prod.map]
        rw [helse]
        cases accept? (.keyword .else_) afterYes.val with
        | none => rfl
        | some found =>
          obtain ⟨word, afterElse⟩ := found
          have hlt' := Nat.lt_succ_of_lt (afterIf.trans (afterYes.trans afterElse)).property
          exact bind_relocate
            (orElse_relocate (ih afterElse.val hlt') (.located word.loc .missingElse))
            fun _ => rfl
      | while_ =>
        refine bind_relocate
          (orElse_relocate (expression_relocate ts) (.located loc .missingLoopCondition))
          fun found => ?_
        obtain ⟨condition, afterCondition⟩ := found
        have hlt := Nat.lt_succ_of_lt afterCondition.property
        exact bind_relocate
          (orElse_relocate (ih afterCondition.val hlt) (.located loc .missingLoopBody))
          fun _ => rfl
      | return_ =>
        refine bind_relocate (expression_relocate ts) fun found => ?_
        cases found <;> rfl
      | sizeof | else_ | proc | extern_ | etcetera =>
        refine bind_relocate hexpression fun found => ?_
        cases found <;> rfl
    | delimiter d =>
      cases d with
      | openBrace =>
        refine bind_relocate (ihs ts (Nat.lt_succ_self _)) fun found => ?_
        obtain ⟨body, ⟨rest, hrest⟩⟩ := found
        cases rest with
        | nil => rfl
        | cons u rest =>
          dsimp only [Prod.map]
          rw [← Statement.relocateAll_eq_map]
          exact ite_relocate rfl rfl
      | comma | openParen | closeParen | openBracket | closeBracket | closeBrace =>
        refine bind_relocate hexpression fun found => ?_
        cases found <;> rfl
    | integer | character | boolean | text | blank _ | sign _ | name =>
      refine bind_relocate hexpression fun found => ?_
      cases found <;> rfl

mutual

theorem statement_relocate (ts : List Token) :
    statement (f eof) (ts.map (Token.relocate f)) =
      (statement eof ts).relocate f (Statement.relocate f) :=
  statement_relocate_step ts (fun ts' _ => statement_relocate ts')
    fun ts' _ => statements_relocate ts'
termination_by 2 * ts.length

theorem statements_relocate (ts : List Token) :
    statements (f eof) (ts.map (Token.relocate f)) =
      relocateMany f (List.map (Statement.relocate f)) (statements eof ts) := by
  rw [statements, statements]
  refine bind_relocate (statement_relocate ts) fun found => ?_
  cases found with
  | none => rfl
  | some found =>
    obtain ⟨s, afterFirst⟩ := found
    have hlt := afterFirst.property
    exact bind_relocate (statements_relocate afterFirst.val) fun _ => rfl
termination_by 2 * ts.length + 1

end

end Parser

/-- An entry of a table to be, whose position is for its fault only. -/
def relocateEntry (f : Nat → Nat) (entry : String × Nat × Symbol) : String × Nat × Symbol :=
  (entry.1, f entry.2.1, entry.2.2)

variable {f : Nat → Nat} {eof : Nat}

theorem SymbolTable.declareAll_relocate (table : SymbolTable)
    (entries : List (String × Nat × Symbol)) :
    declareAll table (entries.map (relocateEntry f)) =
      Outcome.relocate f id (declareAll table entries) := by
  induction entries generalizing table with
  | nil => rfl
  | cons entry rest ih =>
    obtain ⟨name, loc, symbol⟩ := entry
    rw [List.map_cons, relocateEntry, declareAll, declareAll]
    cases table.lookup name with
    | some _ => rfl
    | none => exact ih _

/-- A table that numbers its names does not depend on where these stand. -/
theorem SymbolTable.declareAll_numbered (change : α → α) (name : α → String) (loc : α → Nat)
    (hname : ∀ a, name (change a) = name a) (hloc : ∀ a, loc (change a) = f (loc a))
    (symbol : Nat → Symbol) (as : List α) :
    declareAll [] ((as.map change).zipIdx.map fun x => (name x.1, loc x.1, symbol x.2)) =
      Outcome.relocate f id
        (declareAll [] (as.zipIdx.map fun x => (name x.1, loc x.1, symbol x.2))) := by
  rw [← declareAll_relocate, List.zipIdx_map, List.map_map, List.map_map]
  refine congrArg (declareAll []) (List.map_congr_left fun x _ => ?_)
  simp only [Function.comp, Prod.map, relocateEntry, hname, hloc, id]

theorem Procedure.entries_relocate (ps : List Parameter) (ds : List Declaration) :
    entries (ps.map (Parameter.relocate f)) (ds.map (Declaration.relocate f)) =
      (entries ps ds).map (relocateEntry f) := by
  have hparameters : ∀ q : Parameter × Nat,
      ((q.1.relocate f).declaration?.map fun d => (d.name, d.loc, Symbol.var (.parameter q.2))) =
        (q.1.declaration?.map fun d => (d.name, d.loc, Symbol.var (.parameter q.2))).map
          (relocateEntry f) := by
    intro q
    rw [Parameter.declaration?_relocate, Option.map_map, Option.map_map]
    rfl
  simp only [entries, List.zipIdx_map, List.filterMap_map, List.map_map, List.map_append,
    List.map_filterMap]
  congr 1
  exact List.filterMap_congr fun q _ => hparameters q

theorem Procedure.build_relocate (name : Token) (returns : TypeAt) (ps : List Parameter)
    (implementation : Implementation) :
    build (name.relocate f) (returns.relocate f) (ps.map (Parameter.relocate f))
        (implementation.relocate f) =
      Outcome.relocate f (Procedure.relocate f) (build name returns ps implementation) := by
  have hentries : ∀ ds, SymbolTable.declareAll [] (entries (ps.map (Parameter.relocate f))
      (ds.map (Declaration.relocate f))) =
        Outcome.relocate f id (SymbolTable.declareAll [] (entries ps ds)) := by
    intro ds
    rw [entries_relocate, SymbolTable.declareAll_relocate]
  cases implementation with
  | internal ds body => exact bind_relocate (hentries ds) fun _ => rfl
  | external => exact bind_relocate (hentries []) fun _ => rfl

namespace Parser

theorem externalProcedure_relocate (ts : List Token) :
    externalProcedure (f eof) (ts.map (Token.relocate f)) =
      (externalProcedure eof ts).relocate f (Procedure.relocate f) := by
  refine bind_relocate (typeName_relocate ts) fun found => ?_
  obtain ⟨returns, afterType⟩ := found
  refine bind_relocate (expect_relocate .name .procedureName afterType.val)
    fun found => ?_
  obtain ⟨name, afterName⟩ := found
  refine bind_relocate (parameters_relocate afterName.val) fun found => ?_
  obtain ⟨ps, rest⟩ := found
  exact bind_relocate (Procedure.build_relocate name returns ps .external) fun _ => rfl

theorem internalProcedure_relocate (ts : List Token) :
    internalProcedure (f eof) (ts.map (Token.relocate f)) =
      (internalProcedure eof ts).relocate f (Procedure.relocate f) := by
  refine bind_relocate (typeName_relocate ts) fun found => ?_
  obtain ⟨returns, afterType⟩ := found
  refine bind_relocate (expect_relocate .name .procedureName afterType.val)
    fun found => ?_
  obtain ⟨name, afterName⟩ := found
  refine bind_relocate (parameters_relocate afterName.val) fun found => ?_
  obtain ⟨ps, afterParameters⟩ := found
  refine bind_relocate (variableList_relocate afterParameters.val)
    fun found => ?_
  obtain ⟨locals, afterLocals⟩ := found
  have hstatement : statement (f eof) (afterLocals.val.map (Token.relocate f)) = _ :=
    statement_relocate afterLocals.val
  have hbody := orElse_relocate hstatement
    (.located (nextLoc eof afterLocals.val) (.invalidBody name.text))
  rw [Fault.relocate, ← nextLoc_relocate (f := f)] at hbody
  refine bind_relocate hbody fun found => ?_
  obtain ⟨body, rest⟩ := found
  exact bind_relocate (Procedure.build_relocate name returns ps (.internal locals body))
    fun _ => rfl

theorem procedure_relocate (ts : List Token) :
    procedure (f eof) (ts.map (Token.relocate f)) =
      (procedure eof ts).relocate f (Procedure.relocate f) := by
  unfold procedure
  rw [accept?_relocate, accept?_relocate]
  cases accept? (.keyword .proc) ts with
  | some found =>
    obtain ⟨word, inside⟩ := found
    exact bind_relocate (internalProcedure_relocate inside.val) fun _ => rfl
  | none =>
    cases accept? (.keyword .extern_) ts with
    | some found =>
      obtain ⟨word, inside⟩ := found
      exact bind_relocate (externalProcedure_relocate inside.val) fun _ => rfl
    | none => rfl

theorem procedures_relocate (ts : List Token) :
    procedures (f eof) (ts.map (Token.relocate f)) =
      (procedures eof ts).relocate f (List.map (Procedure.relocate f)) := by
  rw [procedures.eq_def, procedures.eq_def eof ts, procedure_relocate]
  cases procedure eof ts with
  | error fault => rfl
  | ok found =>
    cases found with
    | none => cases ts <;> rfl
    | some found =>
      obtain ⟨p, rest⟩ := found
      have hlt := rest.property
      have hevent : Traced.emit (.parsed (p.relocate f).isExternal (p.relocate f).name) =
          (Traced.emit (.parsed p.isExternal p.name)).relocate f id := by
        rw [Procedure.isExternal_relocate]
        rfl
      refine Traced.bind_relocate hevent fun _ => ?_
      exact Traced.bind_relocate (procedures_relocate rest.val) fun _ => rfl
termination_by ts.length

end Parser

namespace Program

theorem build_relocate (globals : List Declaration) (procedures : List Procedure) :
    build (globals.map (Declaration.relocate f)) (procedures.map (Procedure.relocate f)) =
      Outcome.relocate f (Program.relocate f) (build globals procedures) := by
  have hglobals := SymbolTable.declareAll_numbered (f := f) (Declaration.relocate f)
    Declaration.name Declaration.loc (fun _ => rfl) (fun _ => rfl) (.var <| .global ·) globals
  have hprocedures := SymbolTable.declareAll_numbered (f := f) (Procedure.relocate f)
    Procedure.name Procedure.loc (fun _ => rfl) (fun _ => rfl) .procedure procedures
  exact Outcome.bind_relocate hglobals fun _ => Outcome.bind_relocate hprocedures fun _ => rfl

/-- Parsing commutes with relocation. -/
theorem parse_relocate (tokens : List Token) :
    parse (f eof) (tokens.map (Token.relocate f)) =
      (parse eof tokens).relocate f (Program.relocate f) := by
  have hfilter : Keeps (tokens.map (Token.relocate f))
      ((tokens.filter Token.isSignificant).map (Token.relocate f)) := List.filter_map
  rw [parse_of_keeps _ hfilter, parse_of_keeps _ rfl]
  have hglobals : Traced.ofExcept (Parser.variableList (f eof)
      ((tokens.filter Token.isSignificant).map (Token.relocate f))) =
        (Traced.ofExcept (Parser.variableList eof (tokens.filter Token.isSignificant))).relocate f
          (Prod.map (List.map (Declaration.relocate f)) (Parser.NoLonger.relocate f)) :=
    congrArg Traced.ofExcept (Parser.variableList_relocate _)
  refine Traced.bind_relocate hglobals fun found => ?_
  obtain ⟨globals, rest⟩ := found
  have hevent : Traced.emit (.globals ((globals.map (Declaration.relocate f)).map fun d =>
      (d.type.ty, d.name))) =
        (Traced.emit (.globals (globals.map fun d => (d.type.ty, d.name)))).relocate f id := by
    have hnames : (fun d : Declaration => (d.type.ty, d.name)) ∘ Declaration.relocate f =
        fun d => (d.type.ty, d.name) :=
      funext fun d => by rw [Function.comp, Declaration.relocate, TypeAt.ty_relocate]
    rw [List.map_map, hnames]
    rfl
  refine Traced.bind_relocate hevent fun _ => ?_
  refine Traced.bind_relocate (Parser.procedures_relocate rest.val) fun procedures => ?_
  exact congrArg Traced.ofExcept (build_relocate globals procedures)

end Program

end ProcLang
