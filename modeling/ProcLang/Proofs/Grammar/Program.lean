import ProcLang.Proofs.Blanks
import ProcLang.Proofs.Grammar.Body

/-! Whole programs are parsed as the grammar derives them. -/
namespace ProcLang

open Grammar

theorem SymbolTable.lookup_eq_none {table : SymbolTable} {name : String} :
    table.lookup name = none ↔ name ∉ table.map Prod.fst := by
  rw [List.lookup_eq_none_iff, List.mem_map, not_exists]
  refine forall_congr' fun entry => ?_
  rw [bne_iff_ne, not_and]
  exact imp_congr_right fun _ => ne_comm

/-- Names are entered if none is there twice, neither of old nor of new. -/
theorem SymbolTable.declareAll_eq_ok {table table' : SymbolTable}
    {entries : List (String × Nat × Symbol)} :
    table.declareAll entries = .ok table' ↔
      (entries.map Prod.fst).Nodup ∧
        (∀ name ∈ entries.map Prod.fst, name ∉ table.map Prod.fst) ∧
        table' = table ++ entries.map fun (name, _, symbol) => (name, symbol) := by
  induction entries generalizing table with
  | nil => simp [declareAll, eq_comm]
  | cons entry entries ih =>
    obtain ⟨name, loc, symbol⟩ := entry
    rw [declareAll]
    cases hl : table.lookup name with
    | some found =>
      have hin : name ∈ table.map Prod.fst := by
        by_contra hout
        rw [lookup_eq_none.mpr hout] at hl
        cases hl
      simp only [reduceCtorEq, false_iff]
      exact fun h => h.2.1 name (by simp) hin
    | none =>
      have hout := lookup_eq_none.mp hl
      simp only [ih]
      constructor
      · rintro ⟨hnodup, hfresh, rfl⟩
        have hnew : name ∉ entries.map Prod.fst := fun h => hfresh name h (by simp)
        refine ⟨List.nodup_cons.mpr ⟨hnew, hnodup⟩, fun n hn => ?_, by simp⟩
        rcases List.mem_cons.mp hn with rfl | hn
        · exact hout
        · intro h
          exact hfresh n hn (by simp [List.map_append, h])
      · rintro ⟨hnodup, hfresh, rfl⟩
        obtain ⟨hnew, hnodup⟩ := List.nodup_cons.mp hnodup
        refine ⟨hnodup, fun n hn => ?_, by simp⟩
        rw [List.map_append, List.mem_append, not_or]
        refine ⟨hfresh n (List.mem_cons_of_mem _ hn), ?_⟩
        intro h
        obtain rfl : n = name := by simpa using h
        exact hnew hn

theorem SymbolTable.declareAll_nil {entries : List (String × Nat × Symbol)} {table : SymbolTable} :
    declareAll [] entries = .ok table ↔ Table entries table := by
  simp [declareAll_eq_ok, Table]

theorem Procedure.build_eq_ok {name : Token} {returns : TypeAt} {ps : List Parameter}
    {implementation : Implementation} {p : Procedure} :
    build name returns ps implementation = .ok p ↔
      ∃ symbols, p = ⟨name.text, name.loc, returns, ps, implementation, symbols⟩ ∧
        Table (entries ps p.locals) symbols := by
  unfold build
  simp only [Outcome.bind_eq_ok, Outcome.pure_eq, Except.ok.injEq, SymbolTable.declareAll_nil]
  constructor
  · rintro ⟨symbols, ht, rfl⟩
    exact ⟨symbols, rfl, ht⟩
  · rintro ⟨symbols, rfl, ht⟩
    exact ⟨symbols, ht, rfl⟩

theorem Program.build_eq_ok {globals : List Declaration} {procedures : List Procedure}
    {p : Program} :
    build globals procedures = .ok p ↔
      ∃ globalTable procedureTable, p = ⟨globals, procedures, globalTable, procedureTable⟩ ∧
        Table (globals.zipIdx.map fun (d, i) => (d.name, d.loc, .var (.global i))) globalTable ∧
        Table (procedures.zipIdx.map fun (q, i) => (q.name, q.loc, .procedure i))
          procedureTable := by
  unfold build
  simp only [Outcome.bind_eq_ok, Outcome.pure_eq, Except.ok.injEq, SymbolTable.declareAll_nil]
  constructor
  · rintro ⟨globalTable, hg, procedureTable, hp, rfl⟩
    exact ⟨globalTable, procedureTable, rfl, hg, hp⟩
  · rintro ⟨globalTable, procedureTable, rfl, hg, hp⟩
    exact ⟨globalTable, hg, procedureTable, hp, rfl⟩

namespace Parser

theorem proc_of_internalProcedure {eof : Nat} {t : Token} {ts rest : List Token} {p : Procedure}
    (hk : t.kind = .keyword .proc) (h : Yields (internalProcedure eof ts) p rest) :
    Proc (t :: ts) p rest := by
  unfold internalProcedure at h
  simp only [yields_bind] at h
  obtain ⟨⟨returns, afterType⟩, htype, ⟨name, afterName⟩, hname, ⟨ps, afterParameters⟩, hps,
    ⟨locals, afterLocals⟩, hlocals, ⟨body, left⟩, hbody, q, hq, h⟩ := h
  obtain ⟨rfl, rfl⟩ := yields_ok.mp h
  obtain ⟨symbols, rfl, htable⟩ := Procedure.build_eq_ok.mp hq
  obtain ⟨htype, -⟩ := typeName_yields.mp (yields_of_eq htype)
  obtain ⟨hafter, hkind⟩ := expect_yields.mp (yields_of_eq hname)
  rw [hafter] at htype
  exact .internal hk htype hkind (parameters_yields.mp (yields_of_eq hps))
    (varList_of_variableList (yields_of_eq hlocals))
    (stmt_of_statement ((orElse_yields _).mp (yields_of_eq hbody))) htable

theorem proc_of_externalProcedure {eof : Nat} {t : Token} {ts rest : List Token} {p : Procedure}
    (hk : t.kind = .keyword .extern_) (h : Yields (externalProcedure eof ts) p rest) :
    Proc (t :: ts) p rest := by
  unfold externalProcedure at h
  simp only [yields_bind] at h
  obtain ⟨⟨returns, afterType⟩, htype, ⟨name, afterName⟩, hname, ⟨ps, left⟩, hps, q, hq, h⟩ := h
  obtain ⟨rfl, rfl⟩ := yields_ok.mp h
  obtain ⟨symbols, rfl, htable⟩ := Procedure.build_eq_ok.mp hq
  obtain ⟨htype, -⟩ := typeName_yields.mp (yields_of_eq htype)
  obtain ⟨hafter, hkind⟩ := expect_yields.mp (yields_of_eq hname)
  rw [hafter] at htype
  exact .external hk htype hkind (parameters_yields.mp (yields_of_eq hps)) htable

theorem proc_of_procedure {eof : Nat} {ts rest : List Token} {p : Procedure}
    (h : Finds (procedure eof ts) p rest) : Proc ts p rest := by
  unfold procedure at h
  split at h
  next t inside haccept =>
    obtain ⟨hts, hk⟩ := accept?_eq_some.mp haccept
    rw [finds_bind] at h
    obtain ⟨⟨q, left⟩, hq, h⟩ := h
    obtain ⟨rfl, rfl⟩ := finds_some.mp h
    have hproc := proc_of_internalProcedure hk (yields_of_eq hq)
    rwa [← hts] at hproc
  next =>
    split at h
    next t inside haccept =>
      obtain ⟨hts, hk⟩ := accept?_eq_some.mp haccept
      rw [finds_bind] at h
      obtain ⟨⟨q, left⟩, hq, h⟩ := h
      obtain ⟨rfl, rfl⟩ := finds_some.mp h
      have hproc := proc_of_externalProcedure hk (yields_of_eq hq)
      rwa [← hts] at hproc
    next => exact (finds_none h).elim

theorem next?_of_stmt {ts rest : List Token} {s : Statement} (h : Stmt ts s rest) :
    next? ts ≠ some (.delimiter .openBracket) := by
  cases h with
  | expression he =>
    obtain ⟨t, ts', rfl, hbegins⟩ := begins_of_expr he
    intro hk
    rw [next?_cons, Option.some.injEq] at hk
    rw [hk] at hbegins
    cases hbegins
  | _ => simp [*]

/-- What stands before the body of a procedure is found as it is derived. -/
theorem exists_header (eof : Nat) {u : Token} {ts afterName afterParams afterLocals : List Token}
    {returns : TypeAt} {ps : List Parameter} {locals : List Declaration}
    (htype : TypeName ts returns (u :: afterName)) (hname : u.kind = .name)
    (hps : Params afterName ps afterParams) (hlocals : VarList afterParams locals afterLocals)
    (hnext : next? afterLocals ≠ some (.delimiter .openBracket)) :
    ∃ afterType left₁ left₂ left₃, typeName eof ts = .ok (returns, afterType) ∧
      expect eof .name .procedureName afterType.val = .ok (u, left₁) ∧
      parameters eof left₁.val = .ok (ps, left₂) ∧
      variableList eof left₂.val = .ok (locals, left₃) ∧ left₃.val = afterLocals := by
  obtain ⟨afterType, htype', hafterType⟩ : Yields (typeName eof ts) returns (u :: afterName) :=
    typeName_yields.mpr ⟨htype, by simp [hname]⟩
  obtain ⟨left₁, hname', hleft₁⟩ :
      Yields (expect eof .name .procedureName afterType.val) u afterName :=
    expect_yields.mpr ⟨hafterType, hname⟩
  obtain ⟨left₂, hps', hleft₂⟩ : Yields (parameters eof left₁.val) ps afterParams := by
    rw [hleft₁]
    exact parameters_yields.mpr hps
  obtain ⟨left₃, hlocals', hleft₃⟩ : Yields (variableList eof left₂.val) locals afterLocals := by
    rw [hleft₂]
    exact variableList_of_varList eof hlocals hnext
  exact ⟨afterType, left₁, left₂, left₃, htype', hname', hps', hlocals', hleft₃⟩

theorem internalProcedure_of_parts {eof : Nat} {u : Token}
    {ts afterName afterParams afterLocals rest : List Token} {returns : TypeAt}
    {ps : List Parameter} {locals : List Declaration} {body : Statement} {symbols : SymbolTable}
    (htype : TypeName ts returns (u :: afterName)) (hname : u.kind = .name)
    (hps : Params afterName ps afterParams) (hlocals : VarList afterParams locals afterLocals)
    (hbody : Stmt afterLocals body rest)
    (htable : Table (Procedure.entries ps locals) symbols)
    (hexpr : ∃ found, expression eof rest = .ok found) :
    Yields (internalProcedure eof ts)
      ⟨u.text, u.loc, returns, ps, .internal locals body, symbols⟩ rest := by
  obtain ⟨afterType, left₁, left₂, left₃, htype', hname', hps', hlocals', hleft₃⟩ :=
    exists_header eof htype hname hps hlocals (next?_of_stmt hbody)
  obtain ⟨left₄, hbody', hleft₄⟩ : Yields (orElse (statement eof left₃.val)
      (.located (nextLoc eof left₃.val) (.invalidBody u.text))) body rest := by
    rw [orElse_yields, hleft₃]
    exact statement_of_stmt eof hbody hexpr
  have hbuild : Procedure.build u returns ps (.internal locals body) =
      .ok ⟨u.text, u.loc, returns, ps, .internal locals body, symbols⟩ :=
    Procedure.build_eq_ok.mpr ⟨symbols, rfl, htable⟩
  unfold internalProcedure
  simp only [yields_bind]
  exact ⟨(returns, afterType), htype', (u, left₁), hname', (ps, left₂), hps', (locals, left₃),
    hlocals', (body, left₄), hbody', _, hbuild, yields_ok.mpr ⟨rfl, hleft₄⟩⟩

theorem externalProcedure_of_parts (eof : Nat) {u : Token} {ts afterName rest : List Token}
    {returns : TypeAt} {ps : List Parameter} {symbols : SymbolTable}
    (htype : TypeName ts returns (u :: afterName)) (hname : u.kind = .name)
    (hps : Params afterName ps rest) (htable : Table (Procedure.entries ps []) symbols) :
    Yields (externalProcedure eof ts) ⟨u.text, u.loc, returns, ps, .external, symbols⟩ rest := by
  obtain ⟨afterType, htype', hafterType⟩ : Yields (typeName eof ts) returns (u :: afterName) :=
    typeName_yields.mpr ⟨htype, by simp [hname]⟩
  obtain ⟨left₁, hname', hleft₁⟩ :
      Yields (expect eof .name .procedureName afterType.val) u afterName :=
    expect_yields.mpr ⟨hafterType, hname⟩
  obtain ⟨left₂, hps', hleft₂⟩ : Yields (parameters eof left₁.val) ps rest := by
    rw [hleft₁]
    exact parameters_yields.mpr hps
  have hbuild : Procedure.build u returns ps .external =
      .ok ⟨u.text, u.loc, returns, ps, .external, symbols⟩ :=
    Procedure.build_eq_ok.mpr ⟨symbols, rfl, htable⟩
  unfold externalProcedure
  simp only [yields_bind]
  exact ⟨(returns, afterType), htype', (u, left₁), hname', (ps, left₂), hps', _, hbuild,
    yields_ok.mpr ⟨rfl, hleft₂⟩⟩

theorem procedure_of_proc {eof : Nat} {ts rest : List Token} {p : Procedure} (h : Proc ts p rest)
    (hexpr : ∃ found, expression eof rest = .ok found) : Finds (procedure eof ts) p rest := by
  unfold procedure
  cases h with
  | @internal t u ts _ _ _ _ _ _ _ _ _ hk htype hname hps hlocals hbody htable =>
    have haccept : accept? (.keyword .proc) (t :: ts) = some (t, .tail t ts) :=
      accept?_eq_some.mpr ⟨rfl, hk⟩
    obtain ⟨left, hp, hleft⟩ :=
      internalProcedure_of_parts htype hname hps hlocals hbody htable hexpr
    simp only [haccept, finds_bind]
    exact ⟨(_, left), hp, finds_some.mpr ⟨rfl, hleft⟩⟩
  | @external t u ts _ _ _ _ _ hk htype hname hps htable =>
    have hnot : accept? (.keyword .proc) (t :: ts) = none :=
      accept?_eq_none.mpr (by simp [hk])
    have haccept : accept? (.keyword .extern_) (t :: ts) = some (t, .tail t ts) :=
      accept?_eq_some.mpr ⟨rfl, hk⟩
    obtain ⟨left, hp, hleft⟩ := externalProcedure_of_parts eof htype hname hps htable
    simp only [hnot, haccept, finds_bind]
    exact ⟨(_, left), hp, finds_some.mpr ⟨rfl, hleft⟩⟩

/-- What follows a procedure is the end of the input, or one of two words. -/
theorem next?_of_procs {ts : List Token} {ps : List Procedure} (h : Procs ts ps) :
    ts = [] ∨ next? ts = some (.keyword .proc) ∨ next? ts = some (.keyword .extern_) := by
  cases h with
  | nil => exact .inl rfl
  | cons hp _ =>
    cases hp with
    | internal hk => exact .inr (.inl (congrArg some hk))
    | external hk => exact .inr (.inr (congrArg some hk))

theorem procs_of_procedures {eof : Nat} {ts : List Token} {ps : List Procedure}
    (h : (procedures eof ts).result = .ok ps) : Procs ts ps := by
  induction hn : ts.length using Nat.strong_induction_on generalizing ts ps with
  | _ n ih =>
    subst hn
    rw [procedures.eq_def] at h
    split at h
    next => cases h
    next =>
      split at h
      next =>
        cases h
        exact .nil
      next => cases h
    next p left hp =>
      simp only [Traced.bind_eq_ok, Traced.pure_result] at h
      obtain ⟨-, -, ps', hps, h⟩ := h
      cases h
      exact .cons (proc_of_procedure (finds_of_eq hp)) (ih _ left.property hps rfl)

theorem procedures_of_procs (eof : Nat) {ts : List Token} {ps : List Procedure}
    (h : Procs ts ps) : (procedures eof ts).result = .ok ps := by
  induction h with
  | nil =>
    have hnone : procedure eof [] = .ok none := rfl
    rw [procedures.eq_def, hnone]
    rfl
  | @cons ts rest p ps hp hps ih =>
    have hexpr : expression eof rest = .ok none := by
      refine expression_eq_none ?_
      rcases next?_of_procs hps with rfl | hnext | hnext <;> simp [beginsExpression, *]
    obtain ⟨left, hp', rfl⟩ := procedure_of_proc hp ⟨none, hexpr⟩
    rw [procedures.eq_def, hp']
    simp only [Traced.bind_eq_ok, Traced.pure_result]
    exact ⟨(), rfl, ps, ih, rfl⟩

end Parser

namespace Program

theorem derives_of_parse {eof : Nat} {tokens : List Token} {p : Program}
    (h : (parse eof tokens).result = .ok p) : Derives (tokens.filter Token.isSignificant) p := by
  rw [parse_of_keeps eof rfl] at h
  simp only [Traced.bind_eq_ok, Traced.ofExcept_result] at h
  obtain ⟨⟨globals, left⟩, hglobals, -, -, procedures, hprocedures, hbuild⟩ := h
  obtain ⟨globalTable, procedureTable, rfl, hg, hp⟩ := build_eq_ok.mp hbuild
  exact .intro (Parser.varList_of_variableList (Parser.yields_of_eq hglobals))
    (Parser.procs_of_procedures hprocedures) hg hp

theorem parse_of_derives (eof : Nat) {tokens : List Token} {p : Program}
    (h : Derives (tokens.filter Token.isSignificant) p) : (parse eof tokens).result = .ok p := by
  rw [parse_of_keeps eof rfl]
  simp only [Traced.bind_eq_ok, Traced.ofExcept_result]
  cases h with
  | @intro rest globals procedures globalTable procedureTable hglobals hprocs hg hp =>
    have hnext : next? rest ≠ some (.delimiter .openBracket) := by
      rcases Parser.next?_of_procs hprocs with rfl | hnext | hnext <;> simp [*]
    obtain ⟨left, hglobals', rfl⟩ := Parser.variableList_of_varList eof hglobals hnext
    exact ⟨(globals, left), hglobals', (), rfl, procedures,
      Parser.procedures_of_procs eof hprocs,
      build_eq_ok.mpr ⟨globalTable, procedureTable, rfl, hg, hp⟩⟩

/-- Parsing accepts the grammar and nothing else, and gives the tree that the grammar derives. -/
theorem parse_iff_derives (eof : Nat) (tokens : List Token) (p : Program) :
    (parse eof tokens).result = .ok p ↔ Derives (tokens.filter Token.isSignificant) p :=
  ⟨derives_of_parse, parse_of_derives eof⟩

end Program

end ProcLang
