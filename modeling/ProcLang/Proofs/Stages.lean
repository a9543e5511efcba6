import ProcLang.Compile
import ProcLang.Proofs.Binding
import ProcLang.Proofs.Grammar.Program
import ProcLang.Proofs.Typing.Program

/-! The passes that a source goes through until it is checked, and what they hand on. -/
namespace ProcLang

/-- A tree on its way from a source: its tokens, the tree that is parsed, and that tree bound. -/
structure Stages (source : String) (tokens : List Token) (parsed : Program) : Prop where
  scanned : (Token.scan source).result = .ok tokens
  derives : Grammar.Derives (tokens.filter Token.isSignificant) parsed
  bound : parsed.bind.result = .ok ()

theorem exists_stages {source : String} {p : Program} {warnings : List Warning}
    (h : (checkSource source).result = .ok (p, warnings)) :
    ∃ tokens parsed, Stages source tokens parsed ∧ parsed.bind.tree.WellTyped ∧
      p = parsed.bind.tree.check.tree := by
  obtain ⟨bound, hbound, h⟩ := Traced.bind_eq_ok.mp h
  obtain ⟨rfl, hchecked⟩ := Pass.traced_eq_ok.mp h
  obtain ⟨parsed, hparsed, hbound⟩ := Traced.bind_eq_ok.mp hbound
  obtain ⟨⟨bound', _⟩, hbound', hpure⟩ := Traced.bind_eq_ok.mp hbound
  cases hpure
  obtain ⟨rfl, hbind⟩ := Pass.traced_eq_ok.mp hbound'
  obtain ⟨tokens, hscan, hparse⟩ := Traced.bind_eq_ok.mp hparsed
  exact ⟨tokens, parsed, ⟨hscan, Program.derives_of_parse hparse, hbind⟩,
    Program.check_eq_ok.mp ⟨warnings, hchecked⟩, rfl⟩

theorem wellTyped_of_checkSource {source : String} {p : Program} {warnings : List Warning}
    (h : (checkSource source).result = .ok (p, warnings)) : p.WellTyped ∧ p.Recorded := by
  obtain ⟨bound, -, hp⟩ := Traced.bind_eq_ok.mp h
  obtain ⟨rfl, hok⟩ := Pass.traced_eq_ok.mp hp
  exact Program.check_tree_wellTyped (Program.check_eq_ok.mp ⟨warnings, hok⟩)

namespace Program

/-- A checked procedure was one of the program's. Its body differs in the types on record only. -/
theorem checked_of_mem {p : Program} (h : p.WellTyped) {q' : Procedure}
    (hq' : q' ∈ p.check.tree.procedures) :
    ∃ q ∈ p.procedures, q' = (p.checkProcedure q).tree ∧
      ∀ body', q'.body? = some body' → ∃ body, q.body? = some body ∧
        body'.map Expression.clearTypes = body.map Expression.clearTypes := by
  rw [check_tree_of_wellTyped h] at hq'
  obtain ⟨q, hq, rfl⟩ := List.mem_map.mp hq'
  refine ⟨q, hq, rfl, fun body' hbody' => ?_⟩
  rw [(p.redone_checkProcedure q).body?] at hbody'
  obtain ⟨body, hbody, rfl⟩ := Option.map_eq_some_iff.mp hbody'
  exact ⟨body, hbody, Typing.Context.map_clearTypes_tree body⟩

/-- Every part of a checked body comes from one that differs in the types on record only. -/
theorem mem_parts_check {p : Program} (h : p.WellTyped) {q' : Procedure}
    (hq' : q' ∈ p.check.tree.procedures) {body' : Statement} (hbody' : q'.body? = some body')
    {e' : Expression} (he' : e' ∈ body'.parts) :
    ∃ q ∈ p.procedures, ∃ body, q.body? = some body ∧
      ∃ e ∈ body.parts, e.clearTypes = e'.clearTypes := by
  obtain ⟨q, hq, rfl, hbodies⟩ := checked_of_mem h hq'
  obtain ⟨body, hbody, hclear⟩ := hbodies body' hbody'
  have hparts : e'.clearTypes ∈ body.parts.map Expression.clearTypes := by
    rw [← Statement.parts_clearTypes, ← hclear, Statement.parts_clearTypes]
    exact List.mem_map_of_mem he'
  obtain ⟨e, he, heq⟩ := List.mem_map.mp hparts
  exact ⟨q, hq, body, hbody, e, he, heq⟩

theorem names_bind {p : Program} (h : p.bind.result = .ok ()) :
    p.bind.tree.procedures.map Procedure.name = p.procedures.map Procedure.name ∧
      p.bind.tree.globals = p.globals := by
  have htree : p.bind.tree.procedures = p.procedures.map fun q => (p.bindProcedure q).tree :=
    bindProcedures_tree_of_ok h
  rw [htree, List.map_map]
  exact ⟨List.map_congr_left fun q _ => (p.redone_bindProcedure q).name, rfl⟩

theorem names_check {p : Program} (h : p.WellTyped) :
    p.check.tree.procedures.map Procedure.name = p.procedures.map Procedure.name ∧
      p.check.tree.globals = p.globals := by
  rw [check_tree_of_wellTyped h, List.map_map]
  exact ⟨List.map_congr_left fun q _ => (p.redone_checkProcedure q).name, rfl⟩

end Program

theorem map_fst_zipIdx (name : α → String) (entry : α × Nat → Nat × Symbol) (xs : List α) :
    (xs.zipIdx.map fun x => (name x.1, entry x)).map Prod.fst = xs.map name := by
  calc (xs.zipIdx.map fun x => (name x.1, entry x)).map Prod.fst
      = (xs.zipIdx.map Prod.fst).map name := by
        rw [List.map_map, List.map_map]
        rfl
    _ = xs.map name := by rw [List.zipIdx_map_fst]

/-- Names of procedures are distinct, and so are those of globals. -/
theorem Stages.names_nodup {source : String} {tokens : List Token} {parsed : Program}
    (h : Stages source tokens parsed) (hwell : parsed.bind.tree.WellTyped) :
    (parsed.bind.tree.check.tree.procedures.map Procedure.name).Nodup ∧
      (parsed.bind.tree.check.tree.globals.map Declaration.name).Nodup := by
  rw [(Program.names_check hwell).1, (Program.names_check hwell).2, (Program.names_bind h.bound).1,
    (Program.names_bind h.bound).2]
  cases h.derives with
  | @intro rest globals procedures globalTable procedureTable _ _ hglobals hprocedures =>
    have hnames : (procedures.map Procedure.name).Nodup := by
      rw [← map_fst_zipIdx Procedure.name fun x => (x.1.loc, .procedure x.2)]
      exact hprocedures.1
    have hvars : (globals.map Declaration.name).Nodup := by
      rw [← map_fst_zipIdx Declaration.name fun x => (x.1.loc, .var (.global x.2))]
      exact hglobals.1
    exact ⟨hnames, hvars⟩

end ProcLang
