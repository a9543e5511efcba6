import ProcLang.Proofs.Scoping.Names

/-! Tables of symbols mirror the declarations they are made from, and a name that is declared twice
is refused where it is declared again. -/
namespace ProcLang

open Grammar

/-- The fault is that of the first item whose name was declared before it. -/
def RefusedAtRepeat (name : α → String) (loc : α → Nat) (items : List α) (fault : Fault) : Prop :=
  ∃ before item after, items = before ++ item :: after ∧ (before.map name).Nodup ∧
    name item ∈ before.map name ∧ fault = .located (loc item) (.duplicate (name item))

def Implementation.locals : Implementation → List Declaration
  | .internal locals _ => locals
  | .external => []

/-- What shares one table in a procedure: the parameters but `etcetera`, then the locals. -/
def Procedure.declared (parameters : List Parameter) (implementation : Implementation) :
    List Declaration :=
  parameters.filterMap Parameter.declaration? ++ implementation.locals

/-- Each table of a program has the names of its declarations, under their indices, and no
others. -/
structure Program.Mirrored (p : Program) : Prop where
  globals : ∀ name symbol, p.globalTable.lookup name = some symbol ↔
    ∃ (i : Nat) (d : Declaration), p.globals[i]? = some d ∧ d.name = name ∧
      .var (.global i) = symbol
  procedures : ∀ name symbol, p.procedureTable.lookup name = some symbol ↔
    ∃ (i : Nat) (q : Procedure), p.procedures[i]? = some q ∧ q.name = name ∧
      .procedure i = symbol
  own : ∀ q ∈ p.procedures, ∀ name symbol, q.symbols.lookup name = some symbol ↔
    (∃ (i : Nat) (d : Declaration), q.parameters[i]? = some (.var d) ∧ d.name = name ∧
      .var (.parameter i) = symbol) ∨
    ∃ (i : Nat) (d : Declaration), q.locals[i]? = some d ∧ d.name = name ∧
      .var (.localVar i) = symbol

namespace SymbolTable

/-- Entering stops at a name that is there, of old or by what was entered before it. -/
theorem declareAll_eq_error {table : SymbolTable} {entries : List (String × Nat × Symbol)}
    {fault : Fault} :
    table.declareAll entries = .error fault ↔ ∃ before name loc symbol after table',
      entries = before ++ (name, loc, symbol) :: after ∧ table.declareAll before = .ok table' ∧
      name ∈ table'.map Prod.fst ∧ fault = .located loc (.duplicate name) := by
  induction entries generalizing table with
  | nil => simp [declareAll]
  | cons entry entries ih =>
    obtain ⟨name, loc, symbol⟩ := entry
    rw [declareAll]
    cases hl : table.lookup name with
    | some found =>
      have hin : name ∈ table.map Prod.fst := by
        by_contra hout
        rw [lookup_eq_none.mpr hout] at hl
        cases hl
      constructor
      · intro h
        cases h
        exact ⟨[], name, loc, symbol, entries, table, rfl, rfl, hin, rfl⟩
      · rintro ⟨_ | ⟨first, before⟩, name', loc', symbol', after, table', heq, hbefore, -, rfl⟩
        · cases heq
          rfl
        · cases heq
          rw [declareAll, hl] at hbefore
          cases hbefore
    | none =>
      have hout := lookup_eq_none.mp hl
      simp only [ih]
      constructor
      · rintro ⟨before, name', loc', symbol', after, table', rfl, hbefore, hmem, rfl⟩
        refine ⟨(name, loc, symbol) :: before, name', loc', symbol', after, table', rfl, ?_, hmem,
          rfl⟩
        rw [declareAll, hl]
        exact hbefore
      · rintro ⟨_ | ⟨first, before⟩, name', loc', symbol', after, table', heq, hbefore, hmem, rfl⟩
        · cases heq
          cases hbefore
          exact absurd hmem hout
        · cases heq
          rw [declareAll, hl] at hbefore
          exact ⟨before, name', loc', symbol', after, table', rfl, hbefore, hmem, rfl⟩

variable {name : α → String} {loc : α → Nat} {items : List α}
  {entries : List (String × Nat × Symbol)}

theorem names_of_positions (h : (entries.map fun entry => (entry.1, entry.2.1)) =
    items.map fun item => (name item, loc item)) : entries.map Prod.fst = items.map name := by
  have hfst := congrArg (List.map Prod.fst) h
  rw [List.map_map, List.map_map] at hfst
  exact hfst

/-- Items that are entered by name and position are refused where a name repeats. -/
theorem declareAll_refused (h : (entries.map fun entry => (entry.1, entry.2.1)) =
    items.map fun item => (name item, loc item)) {fault : Fault} :
    declareAll [] entries = .error fault ↔ RefusedAtRepeat name loc items fault := by
  rw [declareAll_eq_error]
  constructor
  · rintro ⟨before, name', loc', symbol, after, table, rfl, hbefore, hmem, rfl⟩
    obtain ⟨hnodup, rfl⟩ := declareAll_nil.mp hbefore
    rw [List.map_append, List.map_cons] at h
    obtain ⟨front, back, rfl, hfront, hback⟩ := List.map_eq_append_iff.mp h.symm
    obtain ⟨item, rest, rfl, hitem, -⟩ := List.map_eq_cons_iff.mp hback
    obtain ⟨hname, hloc⟩ := Prod.mk.inj hitem
    rw [List.map_map] at hmem
    rw [names_of_positions hfront.symm] at hnodup
    refine ⟨front, item, rest, rfl, hnodup, ?_, by rw [hname, hloc]⟩
    rw [hname, ← names_of_positions hfront.symm]
    exact hmem
  · rintro ⟨front, item, rest, rfl, hnodup, hmem, rfl⟩
    rw [List.map_append, List.map_cons] at h
    obtain ⟨before, back, rfl, hbefore, hback⟩ := List.map_eq_append_iff.mp h
    obtain ⟨⟨name', loc', symbol⟩, after, rfl, hentry, -⟩ := List.map_eq_cons_iff.mp hback
    obtain ⟨hname, hloc⟩ := Prod.mk.inj hentry
    rw [← names_of_positions hbefore] at hnodup hmem
    refine ⟨before, name', loc', symbol, after, _, rfl, declareAll_nil.mpr ⟨hnodup, rfl⟩, ?_,
      by rw [← hname, ← hloc]⟩
    rw [List.map_map, show name' = name item from hname]
    exact hmem

/-- Items are entered if and only if no two have the same name. -/
theorem declareAll_accepted (h : (entries.map fun entry => (entry.1, entry.2.1)) =
    items.map fun item => (name item, loc item)) :
    (∃ table, declareAll [] entries = .ok table) ↔ (items.map name).Nodup := by
  simp only [declareAll_nil, Table, exists_and_left, exists_eq, and_true, names_of_positions h]

end SymbolTable

namespace Grammar

theorem positions_indexed (name : α → String) (loc : α → Nat) (symbol : Nat → Symbol)
    (xs : List α) :
    ((indexed name loc symbol xs).map fun entry => (entry.1, entry.2.1)) =
      xs.map fun x => (name x, loc x) := by
  unfold indexed
  rw [List.map_map]
  conv_rhs => rw [← List.zipIdx_map_fst 0 xs, List.map_map]
  rfl

/-- Skipping `etcetera` leaves the others in their order. -/
theorem positions_entries (ps : List Parameter) (implementation : Implementation) :
    ((Procedure.entries ps implementation.locals).map fun entry => (entry.1, entry.2.1)) =
      (Procedure.declared ps implementation).map fun d => (d.name, d.loc) := by
  unfold Procedure.entries Procedure.declared
  rw [List.map_append, List.map_append]
  congr 1
  · conv_rhs => rw [← List.zipIdx_map_fst 0 ps, List.filterMap_map]
    rw [List.map_filterMap, List.map_filterMap]
    refine List.filterMap_congr fun entry _ => ?_
    rw [Option.map_map]
    rfl
  · exact positions_indexed Declaration.name Declaration.loc (fun i => .var (.localVar i))
      implementation.locals

end Grammar

theorem Procedure.build_eq_error {name : Token} {returns : TypeAt} {ps : List Parameter}
    {implementation : Implementation} {fault : Fault} :
    build name returns ps implementation = .error fault ↔
      RefusedAtRepeat Declaration.name Declaration.loc (declared ps implementation) fault := by
  rw [← SymbolTable.declareAll_refused (positions_entries ps implementation)]
  unfold build
  cases implementation <;> simp [Outcome.bind_eq_error, Implementation.locals]

theorem Program.build_eq_error {globals : List Declaration} {procedures : List Procedure}
    {fault : Fault} :
    build globals procedures = .error fault ↔
      RefusedAtRepeat Declaration.name Declaration.loc globals fault ∨
      (globals.map Declaration.name).Nodup ∧
        RefusedAtRepeat Procedure.name Procedure.loc procedures fault := by
  have hglobals := positions_indexed Declaration.name Declaration.loc (fun i => .var (.global i))
    globals
  have hprocedures := positions_indexed Procedure.name Procedure.loc .procedure procedures
  rw [← SymbolTable.declareAll_refused hglobals, ← SymbolTable.declareAll_accepted hglobals,
    ← SymbolTable.declareAll_refused hprocedures]
  unfold build
  simp [Outcome.bind_eq_error, indexed]

/-- Some item is refused if and only if a name is there twice. -/
theorem exists_refusedAtRepeat {name : α → String} {loc : α → Nat} {items : List α} :
    (∃ fault, RefusedAtRepeat name loc items fault) ↔ ¬(items.map name).Nodup := by
  have h := positions_indexed name loc .procedure items
  simp only [← SymbolTable.declareAll_refused h, ← SymbolTable.declareAll_accepted h]
  cases SymbolTable.declareAll [] (indexed name loc .procedure items) <;> simp

theorem Program.Tabled.mirrored {p : Program} (h : p.Tabled) : p.Mirrored where
  globals _ _ := lookup_indexed h.globals
  procedures _ _ := lookup_indexed h.procedures
  own q hq _ _ := lookup_own (h.own q hq)

/-- The tables of a program that is parsed have what is declared, each name under its index.
Programs and procedures are refused for a name that is declared twice and for nothing else: in the
first table that has such a name, where the name is first declared again. -/
theorem Program.tables_mirror_declarations :
    (∀ eof tokens p, (parse eof tokens).result = .ok p → p.Mirrored) ∧
    (∀ globals procedures,
      ((∃ fault, build globals procedures = .error fault) ↔
        ¬(globals.map Declaration.name).Nodup ∨ ¬(procedures.map Procedure.name).Nodup) ∧
      ∀ fault, build globals procedures = .error fault ↔
        RefusedAtRepeat Declaration.name Declaration.loc globals fault ∨
        (globals.map Declaration.name).Nodup ∧
          RefusedAtRepeat Procedure.name Procedure.loc procedures fault) ∧
    (∀ token returns parameters implementation,
      ((∃ fault, Procedure.build token returns parameters implementation = .error fault) ↔
        ¬((Procedure.declared parameters implementation).map Declaration.name).Nodup) ∧
      ∀ fault, Procedure.build token returns parameters implementation = .error fault ↔
        RefusedAtRepeat Declaration.name Declaration.loc
          (Procedure.declared parameters implementation) fault) ∧
    ∀ name, (Cause.duplicate name).kind = .declaration := by
  refine ⟨?_, fun globals procedures => ⟨?_, fun _ => build_eq_error⟩,
    fun token returns parameters implementation => ⟨?_, fun _ => Procedure.build_eq_error⟩,
    fun _ => rfl⟩
  · intro eof tokens p hparse
    exact (tabled_of_derives (derives_of_parse hparse)).mirrored
  · simp only [build_eq_error, exists_or, exists_and_left, exists_refusedAtRepeat]
    tauto
  · simp only [Procedure.build_eq_error, exists_refusedAtRepeat]

end ProcLang
