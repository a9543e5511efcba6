import ProcLang.Compile
import ProcLang.Proofs.Grammar.Parts
import ProcLang.Proofs.Grammar.Tables
import ProcLang.Proofs.Safety.Check
import ProcLang.Proofs.Safety.Generate
import ProcLang.Proofs.Safety.Source
import ProcLang.Proofs.Stages

/-! A compilation ends with an assembly or with a mistake in its source, and in no other way. -/
namespace ProcLang

open Grammar Outcome

/-- What is derived is not decided on. -/
theorem Grammar.fresh_of_expr {ts rest : List Token} {e : Expression} (h : Expr ts e rest) :
    e.Fresh := by
  cases h <;> trivial

theorem Grammar.headed_of_expr {ts rest : List Token} {e : Expression} (h : Expr ts e rest) :
    e.Headed := by
  cases h with
  | operation _ operator _ _ => exact operator
  | _ => trivial

/-- The names that a body sees stand for declarations that are there. -/
theorem Grammar.covered_of_derives {ts : List Token} {p : Program} (h : Derives ts p) :
    p.Covered := by
  cases h with
  | @intro rest globals procedures globalTable procedureTable _ hprocs hglobals hprocedures =>
    intro q hq
    have hown := table_of_procs hprocs q hq
    constructor
    · intro name storage hl
      rcases Scope.lookup_cases hl with hl | hl | hl
      · obtain ⟨loc, hmem⟩ := mem_of_table hown hl
        rcases mem_entries.mp hmem with ⟨i, d, hd, heq⟩ | ⟨i, d, hd, heq⟩
        · cases heq
          refine ⟨d, ?_⟩
          simp [Program.context, Typing.Context.declaration?, hd, Parameter.declaration?]
        · cases heq
          exact ⟨d, hd⟩
      · obtain ⟨loc, hmem⟩ := mem_of_table hglobals hl
        obtain ⟨⟨d, i⟩, hd, heq⟩ := List.mem_map.mp hmem
        rw [List.mem_zipIdx_iff_getElem?] at hd
        cases heq
        exact ⟨d, hd⟩
      · obtain ⟨loc, hmem⟩ := mem_of_table hprocedures hl
        obtain ⟨⟨r, i⟩, hr, heq⟩ := List.mem_map.mp hmem
        cases heq
    · intro name index hl
      rcases Scope.lookup_cases hl with hl | hl | hl
      · obtain ⟨loc, hmem⟩ := mem_of_table hown hl
        rcases mem_entries.mp hmem with ⟨i, d, hd, heq⟩ | ⟨i, d, hd, heq⟩ <;> cases heq
      · obtain ⟨loc, hmem⟩ := mem_of_table hglobals hl
        obtain ⟨⟨d, i⟩, hd, heq⟩ := List.mem_map.mp hmem
        cases heq
      · obtain ⟨loc, hmem⟩ := mem_of_table hprocedures hl
        obtain ⟨⟨r, i⟩, hr, heq⟩ := List.mem_map.mp hmem
        rw [List.mem_zipIdx_iff_getElem?] at hr
        cases heq
        simpa [Program.context] using (List.getElem?_eq_some_iff.mp hr).1

/-- A bound tree is all that binding can make of a source. -/
theorem bound_of_bindSource {source : String} {p : Program}
    (h : (bindSource source).result = .ok p) : p.Bound := by
  obtain ⟨parsed, hparsed, h⟩ := Traced.bind_eq_ok.mp h
  obtain ⟨⟨bound, _⟩, hbound, h⟩ := Traced.bind_eq_ok.mp h
  cases h
  obtain ⟨rfl, hok⟩ := Pass.traced_eq_ok.mp hbound
  obtain ⟨tokens, -, hparse⟩ := Traced.bind_eq_ok.mp hparsed
  have hderives := Program.derives_of_parse hparse
  refine Program.bound_of_bind (covered_of_derives hderives) ?_ hok
  intro q hq body hbody e he
  obtain ⟨_, _, -, hexpr⟩ := derivedIn_of_derives hderives hq hbody he
  exact fresh_of_expr hexpr

theorem bind_reported_of_parseSource {source : String} {p : Program}
    (h : (parseSource source).result = .ok p) : ReportedBy .binding p.bind.result := by
  obtain ⟨tokens, -, hparse⟩ := Traced.bind_eq_ok.mp h
  refine Program.bind_reported fun q hq body hbody e he => ?_
  obtain ⟨_, _, -, hexpr⟩ := derivedIn_of_derives (Program.derives_of_parse hparse) hq hbody he
  exact headed_of_expr hexpr

theorem compile_located (source : String) : Located (compile source).result := by
  have hbind : Located (bindSource source).result := by
    refine Traced.faultsIn_bind ?_ fun parsed hparsed => ?_
    · exact Traced.faultsIn_bind (Token.scan_reported source).located fun tokens _ =>
        (Program.parse_reported _ tokens).located
    · refine Traced.faultsIn_bind ?_ fun _ _ => faultsIn_ok _
      exact fun fault hfault =>
        (bind_reported_of_parseSource hparsed).located fault (Pass.traced_eq_error.mp hfault)
  have hcheck : Located (checkSource source).result :=
    Traced.faultsIn_bind hbind fun p hp fault hfault =>
      (Program.check_reported (bound_of_bindSource hp)).located fault
        (Pass.traced_eq_error.mp hfault)
  refine Traced.faultsIn_bind hcheck ?_
  rintro ⟨checked, warnings⟩ hchecked
  refine Traced.faultsIn_bind ?_ fun _ _ =>
    Traced.faultsIn_bind (faultsIn_ok _) fun _ _ => faultsIn_ok _
  obtain ⟨hwell, hrec⟩ := wellTyped_of_checkSource hchecked
  obtain ⟨a, ha⟩ := Program.generate_eq_ok hwell hrec
  intro fault hfault
  have hgenerate : checked.generate = .error fault := hfault
  rw [ha] at hgenerate
  cases hgenerate

/-- Every source is compiled, or refused for a mistake at a position of it; no pass is ever given
a tree that breaks what it relies on. -/
theorem compile_ok_or_located (source : String) :
    (∃ compilation, (compile source).result = .ok compilation) ∨
      ∃ loc cause, (compile source).result = .error (.located loc cause) := by
  have hlocated := compile_located source
  cases h : (compile source).result with
  | ok compilation => exact .inl ⟨compilation, rfl⟩
  | error fault =>
    cases fault with
    | located loc cause => exact .inr ⟨loc, cause, rfl⟩
    | internal breach => exact (hlocated _ h).elim

end ProcLang
