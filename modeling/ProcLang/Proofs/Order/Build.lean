import ProcLang.Proofs.Order.Program
import ProcLang.Proofs.Safety.Compile

/-! The order of declarations makes no difference but to the order of what is generated. -/
namespace ProcLang

open Assembly Grammar

section Tables

variable {ρ : Renumbering} {name : α → String} {loc : α → Nat} {symbol : Nat → Symbol}
  {xs xs' : List α}

theorem map_fst_indexed (name : α → String) (loc : α → Nat) (symbol : Nat → Symbol)
    (xs : List α) : (indexed name loc symbol xs).map Prod.fst = xs.map name :=
  map_fst_zipIdx name (fun x => (loc x.1, symbol x.2)) xs

/-- The index of a declaration in another order. -/
def indexIn (name : α → String) (xs xs' : List α) (i : Nat) : Nat :=
  (xs'.map name).idxOf ((xs[i]?.map name).getD "")

theorem getElem?_indexIn (hperm : xs.Perm xs') (hnodup : (xs.map name).Nodup) {i : Nat} {x : α}
    (hx : xs[i]? = some x) : xs'[indexIn name xs xs' i]? = some x := by
  obtain ⟨j, hj⟩ := List.getElem?_of_mem (hperm.mem_iff.mp (List.mem_of_getElem? hx))
  have hname : (xs'.map name)[j]? = some (name x) := by rw [List.getElem?_map, hj, Option.map_some]
  obtain ⟨hlt, heq⟩ := List.getElem?_eq_some_iff.mp hname
  have hindex : indexIn name xs xs' i = j := by
    rw [indexIn, hx, Option.map_some, Option.getD_some, ← heq]
    exact ((hperm.map name).nodup_iff.mp hnodup).idxOf_getElem j hlt
  rw [hindex, hj]

/-- A name is found in the table of another order, under its index there. -/
theorem lookup_reordered {table table' : SymbolTable}
    (h : Table (indexed name loc symbol xs) table)
    (h' : Table (indexed name loc symbol xs') table') (hperm : xs.Perm xs') {f : Nat → Nat}
    (hf : ∀ (i : Nat) (x : α), xs[i]? = some x → xs'[f i]? = some x)
    (hsymbol : ∀ i, (symbol i).renumber ρ = symbol (f i)) (n : String) :
    table'.lookup n = (table.lookup n).map (Symbol.renumber ρ) := by
  cases hl : table.lookup n with
  | none =>
    have hkeys : ∀ {xs : List α} {table}, Table (indexed name loc symbol xs) table →
        table.map Prod.fst = xs.map name := by
      intro xs table h
      rw [h.2, List.map_map, ← map_fst_indexed name loc symbol]
      rfl
    rw [SymbolTable.lookup_eq_none, hkeys h] at hl
    rw [Option.map_none, SymbolTable.lookup_eq_none, hkeys h']
    exact fun hmem => hl ((hperm.map name).mem_iff.mpr hmem)
  | some found =>
    obtain ⟨l, hmem⟩ := mem_of_table h hl
    obtain ⟨i, x, hx, heq⟩ := (mem_indexed name loc symbol).mp hmem
    cases heq
    rw [Option.map_some, hsymbol]
    exact lookup_of_mem h' ((mem_indexed name loc symbol).mpr ⟨f i, x, hf i x hx, rfl⟩)

end Tables

/-- A procedure as it is declared: its table is that of its own names, and nothing in its body is
decided on. -/
structure Procedure.Undecorated (q : Procedure) : Prop where
  built : ∃ name, Procedure.build name q.returns q.parameters q.implementation = .ok q
  fresh : ∀ body, q.body? = some body → ∀ e ∈ body.parts, e.Fresh

/-- Parameters and locals keep their indices. -/
theorem Procedure.Undecorated.lookup_renumber {q : Procedure} (h : q.Undecorated)
    (ρ : Renumbering) (name : String) :
    (q.symbols.lookup name).map (Symbol.renumber ρ) = q.symbols.lookup name := by
  obtain ⟨token, hbuilt⟩ := h.built
  obtain ⟨symbols, hq, htable⟩ := Procedure.build_eq_ok.mp hbuilt
  have hsymbols : q.symbols = symbols := congrArg Procedure.symbols hq
  rw [hsymbols]
  cases hl : symbols.lookup name with
  | none => rfl
  | some symbol =>
    obtain ⟨loc, hmem⟩ := mem_of_table htable hl
    rcases mem_entries.mp hmem with ⟨i, d, -, heq⟩ | ⟨i, d, -, heq⟩ <;> cases heq <;> rfl

namespace Program

/-- The indices that the declarations of a program have in another one. -/
def renumbering (p p' : Program) : Renumbering where
  global := indexIn Declaration.name p.globals p'.globals
  procedure := indexIn Procedure.name p.procedures p'.procedures

/-- Names can be bound and types can be checked. -/
def Passes (p : Program) : Prop :=
  p.bind.result = .ok () ∧ ∃ warnings, p.bind.tree.check.result = .ok warnings

variable {globals globals' : List Declaration} {procedures procedures' : List Procedure}
  {p p' : Program}

theorem build_iff : build globals procedures = .ok p ↔
    p.globals = globals ∧ p.procedures = procedures ∧
      Table (indexed Declaration.name Declaration.loc (fun i => .var (.global i)) p.globals)
        p.globalTable ∧
      Table (indexed Procedure.name Procedure.loc .procedure p.procedures) p.procedureTable := by
  rw [build_eq_ok]
  constructor
  · rintro ⟨globalTable, procedureTable, rfl, hglobals, hprocedures⟩
    exact ⟨rfl, rfl, hglobals, hprocedures⟩
  · rintro ⟨rfl, rfl, hglobals, hprocedures⟩
    exact ⟨_, _, rfl, hglobals, hprocedures⟩

theorem names_nodup_of_build (h : build globals procedures = .ok p) :
    (globals.map Declaration.name).Nodup ∧ (procedures.map Procedure.name).Nodup := by
  obtain ⟨rfl, rfl, hglobals, hprocedures⟩ := build_iff.mp h
  have hvars := hglobals.1
  have hprocs := hprocedures.1
  rw [map_fst_indexed] at hvars hprocs
  exact ⟨hvars, hprocs⟩

/-- Declarations that are accepted in one order are accepted in any. -/
theorem build_of_perm (h : build globals procedures = .ok p) (hglobals : globals.Perm globals')
    (hprocedures : procedures.Perm procedures') : ∃ p', build globals' procedures' = .ok p' := by
  obtain ⟨hvars, hprocs⟩ := names_nodup_of_build h
  have hvars' : ((indexed Declaration.name Declaration.loc (fun i => .var (.global i))
      globals').map Prod.fst).Nodup := by
    rw [map_fst_indexed]
    exact (hglobals.map Declaration.name).nodup_iff.mp hvars
  have hprocs' : ((indexed Procedure.name Procedure.loc .procedure
      procedures').map Prod.fst).Nodup := by
    rw [map_fst_indexed]
    exact (hprocedures.map Procedure.name).nodup_iff.mp hprocs
  exact ⟨_, build_eq_ok.mpr ⟨_, _, rfl, ⟨hvars', rfl⟩, ⟨hprocs', rfl⟩⟩⟩

theorem reordered_of_build (h : build globals procedures = .ok p)
    (h' : build globals' procedures' = .ok p') (hplain : ∀ q ∈ procedures, q.Undecorated)
    (hglobals : globals.Perm globals') (hprocedures : procedures.Perm procedures') :
    Reordered (renumbering p p') p p' ∧ ∀ q ∈ p.procedures,
      (p.scope q).Renumbers (renumbering p p')
        (p'.scope (q.map (Expression.renumber (renumbering p p')))) := by
  obtain ⟨hvars, hprocs⟩ := names_nodup_of_build h
  obtain ⟨rfl, rfl, htable, hprocTable⟩ := build_iff.mp h
  obtain ⟨rfl, rfl, htable', hprocTable'⟩ := build_iff.mp h'
  -- There are no indices in a body yet.
  have hsame : ∀ q ∈ p.procedures, q.map (Expression.renumber (renumbering p p')) = q :=
    fun q hq => Procedure.map_renumber_of_fresh _ (hplain q hq).fresh
  have hglobal : ∀ (i : Nat) (d : Declaration), p.globals[i]? = some d →
      p'.globals[(renumbering p p').global i]? = some d :=
    fun i d => getElem?_indexIn hglobals hvars
  have hprocedure : ∀ (i : Nat) (q : Procedure), p.procedures[i]? = some q →
      p'.procedures[(renumbering p p').procedure i]? = some q :=
    fun i q => getElem?_indexIn hprocedures hprocs
  refine ⟨⟨hglobals, ?_, hglobal, fun i q hq => ?_⟩, fun q hq name => ?_⟩
  · rwa [List.map_congr_left hsame, List.map_id']
  · rw [hsame q (List.mem_of_getElem? hq)]
    exact hprocedure i q hq
  -- The three tables that a name is looked up in, each with its own reason to agree.
  · rw [hsame q hq]
    have hown := (hplain q hq).lookup_renumber (renumbering p p') name
    have hfound := lookup_reordered htable htable' hglobals hglobal (fun i => rfl) name
    have hcalled := lookup_reordered hprocTable hprocTable' hprocedures hprocedure
      (fun i => rfl) name
    change (q.symbols.lookup name).or ((p'.globalTable.lookup name).or
      (p'.procedureTable.lookup name)) = _
    rw [hfound, hcalled, ← hown, ← Option.map_or, ← Option.map_or]
    rfl

theorem passes_of_perm (h : build globals procedures = .ok p)
    (h' : build globals' procedures' = .ok p') (hplain : ∀ q ∈ procedures, q.Undecorated)
    (hglobals : globals.Perm globals') (hprocedures : procedures.Perm procedures')
    (hpasses : p.Passes) :
    p'.Passes ∧ Reordered (renumbering p p') p.bind.tree.check.tree p'.bind.tree.check.tree := by
  obtain ⟨hreordered, hscope⟩ := reordered_of_build h h' hplain hglobals hprocedures
  obtain ⟨hbind, hbound⟩ := hreordered.bind hscope hpasses.1
  have hwell := check_eq_ok.mp hpasses.2
  exact ⟨⟨hbind, check_eq_ok.mpr (hbound.wellTyped hwell)⟩, hbound.check hwell⟩

/-- Neither binding nor checking changes what has a name and a body. -/
theorem internals_checked (h : p.Passes) :
    Procedure.internals p.bind.tree.check.tree.procedures =
      Procedure.internals p.procedures := by
  have hmap : ∀ (f : Procedure → Procedure) (qs : List Procedure),
      (∀ q, (f q).name = q.name ∧ (f q).isExternal = q.isExternal) →
      Procedure.internals (qs.map f) = Procedure.internals qs := by
    intro f qs hf
    simp only [Procedure.internals, List.filter_map, List.map_map, Function.comp_def, hf]
  have hbind : p.bind.tree.procedures = p.procedures.map fun q => (p.bindProcedure q).tree :=
    bindProcedures_tree_of_ok h.1
  rw [check_tree_of_wellTyped (check_eq_ok.mp h.2), hmap, hbind, hmap]
  · intro q
    have hredone := p.redone_bindProcedure q
    exact ⟨hredone.name, hredone.isExternal⟩
  · intro q
    have hredone := p.bind.tree.redone_checkProcedure q
    exact ⟨hredone.name, hredone.isExternal⟩

/-- Declarations may come in any order. What is accepted in one order is accepted in every other,
and each procedure has the same code; the parts of the assembly come in another order. -/
theorem order_immaterial (hbuild : build globals procedures = .ok p)
    (hplain : ∀ q ∈ procedures, q.Undecorated) (hglobals : globals.Perm globals')
    (hprocedures : procedures.Perm procedures') :
    ∃ p', build globals' procedures' = .ok p' ∧ (p.Passes ↔ p'.Passes) ∧
      (p.Passes → ∃ a a', p.bind.tree.check.tree.generate = .ok a ∧
        p'.bind.tree.check.tree.generate = .ok a' ∧
        Rearranged (Procedure.internals procedures) (Procedure.internals procedures') a a') := by
  obtain ⟨p', hbuild'⟩ := build_of_perm hbuild hglobals hprocedures
  have hplain' : ∀ q ∈ procedures', q.Undecorated :=
    fun q hq => hplain q (hprocedures.mem_iff.mpr hq)
  refine ⟨p', hbuild', ⟨fun h => ?_, fun h => ?_⟩, fun h => ?_⟩
  · exact (passes_of_perm hbuild hbuild' hplain hglobals hprocedures h).1
  · exact (passes_of_perm hbuild' hbuild hplain' hglobals.symm hprocedures.symm h).1
  · obtain ⟨h', hreordered⟩ := passes_of_perm hbuild hbuild' hplain hglobals hprocedures h
    obtain ⟨hwell, hrec⟩ := check_tree_wellTyped (check_eq_ok.mp h.2)
    obtain ⟨hwell', hrec'⟩ := check_tree_wellTyped (check_eq_ok.mp h'.2)
    obtain ⟨a, ha⟩ := generate_eq_ok hwell hrec
    obtain ⟨a', ha'⟩ := generate_eq_ok hwell' hrec'
    have hnodup : (p.bind.tree.check.tree.procedures.map Procedure.name).Nodup := by
      rw [(names_check (check_eq_ok.mp h.2)).1, (names_bind h.1).1, (build_iff.mp hbuild).2.1]
      exact (names_nodup_of_build hbuild).2
    have hgenerate := hreordered.generate hnodup ha ha'
    rw [internals_checked h, internals_checked h', (build_iff.mp hbuild).2.1,
      (build_iff.mp hbuild').2.1] at hgenerate
    exact ⟨a, a', ha, ha', hgenerate⟩

end Program

namespace Mutual

def operation (loc : Nat) (kind : Token.Kind) (text : String) (operands : List Expression) :
    Expression :=
  .operation loc ⟨kind, text, loc + 1⟩ operands none none

/-- Puts its parameter into a global and calls another procedure with it. -/
def body (global callee : String) (loc : Nat) : Statement :=
  let assigned := operation (loc + 5) (.sign .equals) "="
    [.var ⟨global, loc + 6, none, none⟩, .var ⟨"n", loc + 7, none, none⟩]
  .block loc [
    .expression (operation (loc + 1) .name "show" [.literal ⟨.character 65, loc + 2⟩]),
    .ret (loc + 3) (operation (loc + 4) .name callee [assigned])]

def globals : List Declaration :=
  [⟨"a", .int 0, 1⟩, ⟨"b", .int 2, 3⟩]

/-- Two procedures that call each other, and one that is linked in. -/
def procedures : List Procedure :=
  [⟨"even", 4, .int 5, [.var ⟨"n", .int 6, 7⟩], .internal [] (body "a" "odd" 10),
      [("n", .var (.parameter 0))]⟩,
    ⟨"show", 20, .int 21, [.var ⟨"c", .char 22, 23⟩, .etcetera 24], .external,
      [("c", .var (.parameter 0))]⟩,
    ⟨"odd", 25, .int 26, [.var ⟨"n", .int 27, 28⟩], .internal [] (body "b" "even" 30),
      [("n", .var (.parameter 0))]⟩]

def program : Program :=
  ⟨globals, procedures, [("a", .var (.global 0)), ("b", .var (.global 1))],
    [("even", .procedure 0), ("show", .procedure 1), ("odd", .procedure 2)]⟩

theorem fresh_body (global callee : String) (loc : Nat) :
    ∀ e ∈ (body global callee loc).parts, e.Fresh := by
  simp [body, operation, Statement.parts, Statement.expressions, Statement.allExpressions,
    Expression.parts, Expression.operandParts, Expression.Fresh]

theorem undecorated : ∀ q ∈ procedures, q.Undecorated := by
  rw [procedures, List.forall_mem_cons, List.forall_mem_cons, List.forall_mem_singleton]
  refine ⟨⟨⟨⟨.name, "even", 4⟩, rfl⟩, ?_⟩, ⟨⟨⟨.name, "show", 20⟩, rfl⟩, nofun⟩,
    ⟨⟨⟨.name, "odd", 25⟩, rfl⟩, ?_⟩⟩
  · rintro _ ⟨⟩
    exact fresh_body "a" "odd" 10
  · rintro _ ⟨⟩
    exact fresh_body "b" "even" 30

end Mutual

theorem Program.order_immaterial_mutual : Mutual.program.Passes ∧
    ∃ p', build Mutual.globals.reverse Mutual.procedures.reverse = .ok p' ∧ p'.Passes ∧
      ∃ a a', Mutual.program.bind.tree.check.tree.generate = .ok a ∧
        p'.bind.tree.check.tree.generate = .ok a' ∧
        Rearranged ["even", "odd"] ["odd", "even"] a a' := by
  have hbuild : build Mutual.globals Mutual.procedures = .ok Mutual.program := rfl
  have hpasses : Mutual.program.Passes := ⟨by decide +kernel, [], by decide +kernel⟩
  obtain ⟨p', hbuild', hiff, hgenerate⟩ := order_immaterial hbuild Mutual.undecorated
    (List.reverse_perm _).symm (List.reverse_perm _).symm
  exact ⟨hpasses, p', hbuild', hiff.mp hpasses, hgenerate hpasses⟩

end ProcLang
