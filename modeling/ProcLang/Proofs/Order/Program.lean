import ProcLang.Proofs.Order.Check
import ProcLang.Proofs.Order.Code
import ProcLang.Proofs.Symbols.References

/-! Programs that declare the same in another order, from one pass to the next. -/
namespace ProcLang

open Assembly Codegen

/-- The names of the procedures that have a body. -/
def Procedure.internals (qs : List Procedure) : List String :=
  (qs.filter (!·.isExternal)).map Procedure.name

/-- Assemblies that differ in the order of their parts only: the code of each named procedure, from
its label to its return, what is linked in, and the data of globals and of literals. -/
structure Assembly.Rearranged (names names' : List String) (a a' : Assembly) : Prop where
  procedures : ∃ code : String → Code, a.procedures = names.map code ∧
    a'.procedures = names'.map code ∧ ∀ name ∈ names,
      (code name).head? = some (.label (.procedure name)) ∧
      (code name).getLast? = some (.instruction .ret)
  externals : a.externals.Perm a'.externals
  globals : (a.data.filter (!·.label.isLiteral)).Perm (a'.data.filter (!·.label.isLiteral))
  literals : (a.data.filter (·.label.isLiteral)).Perm (a'.data.filter (·.label.isLiteral))

/-- Values that belong to items with distinct keys can be found by these keys. -/
theorem exists_map_key [Inhabited β] {key : α → String} {as : List α} {bs : List β}
    (hlength : as.length = bs.length) (hnodup : (as.map key).Nodup) :
    ∃ f : String → β, bs = as.map fun a => f (key a) := by
  induction as generalizing bs with
  | nil => exact ⟨fun _ => default, List.length_eq_zero_iff.mp hlength.symm⟩
  | cons a as ih =>
    cases bs with
    | nil => cases hlength
    | cons b bs =>
      obtain ⟨hnew, hnodup⟩ := List.nodup_cons.mp hnodup
      obtain ⟨f, rfl⟩ := ih (Nat.succ.inj hlength) hnodup
      refine ⟨Function.update f (key a) b, ?_⟩
      rw [List.map_cons, Function.update_self]
      congr 1
      refine List.map_congr_left fun a' ha' => (Function.update_of_ne ?_ _ _).symm
      exact fun heq => hnew (heq ▸ List.mem_map_of_mem ha')

theorem eq_map_of_forall₂ {R : α → β → Prop} {f : α → β} {as : List α} {bs : List β}
    (h : List.Forall₂ R as bs) (hf : ∀ a ∈ as, ∀ b, R a b → b = f a) : bs = as.map f := by
  have heq : List.Forall₂ (fun a b => b = f a) as bs := forall₂_imp_of_mem h hf
  clear h hf
  induction heq with
  | nil => rfl
  | cons hab _ ih => rw [hab, ih, List.map_cons]

namespace Program

/-- Another order of the same declarations. Bodies refer to them by their new indices. -/
structure Reordered (ρ : Renumbering) (p p' : Program) : Prop where
  globals : p.globals.Perm p'.globals
  procedures : (p.procedures.map (Procedure.map (Expression.renumber ρ))).Perm p'.procedures
  global : ∀ (i : Nat) (d : Declaration), p.globals[i]? = some d →
    p'.globals[ρ.global i]? = some d
  procedure : ∀ (i : Nat) (q : Procedure), p.procedures[i]? = some q →
    p'.procedures[ρ.procedure i]? = some (q.map (Expression.renumber ρ))

variable {ρ : Renumbering} {p p' : Program}

namespace Reordered

theorem context (h : Reordered ρ p p') (q : Procedure) :
    (p.context q).Renumbers ρ (p'.context (q.map (Expression.renumber ρ))) := by
  have hredone := q.redone_map (Expression.renumber ρ)
  refine ⟨fun storage d hd => ?_, fun index s hs => ?_, hredone.returns⟩
  · cases storage with
    | global index => exact h.global index d hd
    | parameter index =>
      change (q.map _).parameters[index]?.bind Parameter.declaration? = some d
      rwa [hredone.parameters]
    | localVar index =>
      change (q.map _).locals[index]? = some d
      rwa [hredone.locals]
  · have hs' : (p.procedures.map Procedure.signature)[index]? = some s := hs
    rw [List.getElem?_map] at hs'
    obtain ⟨r, hr, rfl⟩ := Option.map_eq_some_iff.mp hs'
    change (p'.procedures.map Procedure.signature)[ρ.procedure index]? = some r.signature
    rw [List.getElem?_map, h.procedure index r hr, Option.map_some, Procedure.signature_map]

theorem codeContext (h : Reordered ρ p p') (q : Procedure) :
    (p.codeContext q).Renumbers ρ (p'.codeContext (q.map (Expression.renumber ρ))) := by
  have hredone := q.redone_map (Expression.renumber ρ)
  have hframe : Frame.ofProcedure (q.map (Expression.renumber ρ)) = Frame.ofProcedure q := by
    rw [Frame.ofProcedure, Frame.ofProcedure, hredone.parameters, hredone.locals]
  refine ⟨fun v a ha => ?_, fun index r hr => ?_, hframe⟩
  · cases hbinding : v.binding with
    | none => simp [Context.address, hbinding] at ha
    | some storage =>
      cases storage with
      | global index =>
        cases hd : p.globals[index]? with
        | none => simp [Context.address, hbinding, Program.codeContext, hd] at ha
        | some d =>
          simpa [Context.address, Variable.renumber, hbinding, Storage.renumber,
            Program.codeContext, hd, h.global index d hd] using ha
      | parameter index | localVar index =>
        simpa [Context.address, Variable.renumber, hbinding, Storage.renumber,
          Program.codeContext, hframe] using ha
  · have hcallee := r.redone_map (Expression.renumber ρ)
    have hvariadic : (r.map (Expression.renumber ρ)).isVariadic = r.isVariadic := by
      rw [Procedure.isVariadic, Procedure.isVariadic, hcallee.parameters]
    refine ⟨_, h.procedure index r hr, funext fun count => ?_⟩
    rw [callCode, callCode, hcallee.name, hvariadic, hcallee.returns]

theorem mem_procedures (h : Reordered ρ p p') {q' : Procedure} :
    q' ∈ p'.procedures ↔ ∃ q ∈ p.procedures, q.map (Expression.renumber ρ) = q' := by
  rw [← h.procedures.mem_iff, List.mem_map]

/-- A pass over procedures keeps the order if it treats them the same. -/
theorem mapProcedures (h : Reordered ρ p p') (f f' : Procedure → Procedure)
    (hf : ∀ q ∈ p.procedures,
      f' (q.map (Expression.renumber ρ)) = (f q).map (Expression.renumber ρ)) :
    Reordered ρ { p with procedures := p.procedures.map f }
      { p' with procedures := p'.procedures.map f' } := by
  refine ⟨h.globals, ?_, h.global, fun i q hq => ?_⟩
  · have hmap := h.procedures.map f'
    rw [List.map_map] at hmap ⊢
    exact List.map_congr_left hf ▸ hmap
  · rw [List.getElem?_map] at hq
    obtain ⟨r, hr, rfl⟩ := Option.map_eq_some_iff.mp hq
    rw [List.getElem?_map, h.procedure i r hr, Option.map_some,
      hf r (List.mem_of_getElem? hr)]

theorem bindProcedure {q : Procedure}
    (hscope : (p.scope q).Renumbers ρ (p'.scope (q.map (Expression.renumber ρ))))
    (hok : (p.bindProcedure q).result = .ok ()) :
    (p'.bindProcedure (q.map (Expression.renumber ρ))).result = .ok () ∧
      (p'.bindProcedure (q.map (Expression.renumber ρ))).tree =
        (p.bindProcedure q).tree.map (Expression.renumber ρ) := by
  have hbound := fun body hbody => Scope.bindStatement_renumber hscope
    (bindProcedure_eq_ok.mp hok body hbody)
  constructor
  · rw [bindProcedure_eq_ok, Procedure.body?_map]
    intro body' hbody'
    obtain ⟨body, hbody, rfl⟩ := Option.map_eq_some_iff.mp hbody'
    exact (hbound body hbody).1
  · exact Procedure.pass_tree_map _ fun body hbody => (hbound body hbody).2

theorem bind (h : Reordered ρ p p')
    (hscope : ∀ q ∈ p.procedures,
      (p.scope q).Renumbers ρ (p'.scope (q.map (Expression.renumber ρ))))
    (hok : p.bind.result = .ok ()) :
    p'.bind.result = .ok () ∧ Reordered ρ p.bind.tree p'.bind.tree := by
  have hall := bindProcedures_eq_ok.mp hok
  have hok' : (p'.bindProcedures p'.procedures).result = .ok () := by
    rw [bindProcedures_eq_ok]
    intro q' hq'
    obtain ⟨q, hq, rfl⟩ := h.mem_procedures.mp hq'
    exact (bindProcedure (hscope q hq) (hall q hq)).1
  refine ⟨hok', ?_⟩
  have hmap := h.mapProcedures (fun q => (p.bindProcedure q).tree)
    (fun q => (p'.bindProcedure q).tree)
    fun q hq => (bindProcedure (hscope q hq) (hall q hq)).2
  rwa [← bindProcedures_tree_of_ok hok, ← bindProcedures_tree_of_ok hok'] at hmap

theorem wellTyped (h : Reordered ρ p p') (hwell : p.WellTyped) : p'.WellTyped := by
  refine ⟨fun d hd => hwell.globals d (h.globals.mem_iff.mpr hd), ?_, ?_, ?_, ?_, ?_⟩
  all_goals
    intro q' hq'
    obtain ⟨q, hq, rfl⟩ := h.mem_procedures.mp hq'
    have hredone := q.redone_map (Expression.renumber ρ)
  · rw [hredone.parameters]
    exact hwell.parameters q hq
  · rw [hredone.locals]
    exact hwell.locals q hq
  · rw [hredone.parameters, hredone.isExternal]
    exact hwell.etcetera q hq
  · rw [hredone.parameters, hredone.isExternal]
    exact hwell.few q hq
  · intro body' hbody'
    rw [hredone.body?] at hbody'
    obtain ⟨body, hbody, rfl⟩ := Option.map_eq_some_iff.mp hbody'
    exact (Typing.Context.checkStatement_renumber (h.context q) (hwell.bodies q hq body hbody)).1

theorem check (h : Reordered ρ p p') (hwell : p.WellTyped) :
    Reordered ρ p.check.tree p'.check.tree := by
  rw [check_tree_of_wellTyped hwell, check_tree_of_wellTyped (h.wellTyped hwell)]
  refine h.mapProcedures _ _ fun q hq => Procedure.pass_tree_map _ fun body hbody => ?_
  exact (Typing.Context.checkStatement_renumber (h.context q) (hwell.bodies q hq body hbody)).2

end Reordered

theorem filter_data {a : Assembly} (h : p.generate = .ok a) :
    ∃ globals, p.globals.mapM globalDatum = .ok globals ∧
      a.data.filter (!·.label.isLiteral) = globals ∧
      a.data.filter (·.label.isLiteral) =
        (p.parts.filterMap Expression.literal?).filterMap Literal.datum? := by
  obtain ⟨-, -, globals, hglobals, hdata⟩ := generate_parts h
  have hvars : ∀ d ∈ globals, d.label.isLiteral = false := by
    intro d hd
    have hlabel : d.label ∈ globals.map Datum.label := List.mem_map_of_mem hd
    rw [map_label_globals hglobals] at hlabel
    obtain ⟨global, -, heq⟩ := List.mem_map.mp hlabel
    rw [← heq]
    rfl
  have hliterals : ∀ d ∈ (p.parts.filterMap Expression.literal?).filterMap Literal.datum?,
      d.label.isLiteral = true := by
    intro d hd
    obtain ⟨l, -, hl⟩ := List.mem_filterMap.mp hd
    rcases Literal.label_datum? hl with hlabel | hlabel <;> rw [hlabel] <;> rfl
  refine ⟨globals, hglobals, ?_, ?_⟩
  · rw [hdata, List.filter_append, List.filter_eq_self.mpr (by simpa using hvars),
      List.filter_eq_nil_iff.mpr (by simpa using hliterals), List.append_nil]
  · rw [hdata, List.filter_append, List.filter_eq_nil_iff.mpr (by simpa using hvars),
      List.filter_eq_self.mpr hliterals, List.nil_append]

namespace Reordered

theorem exists_code (h : Reordered ρ p p') (hnodup : (p.procedures.map Procedure.name).Nodup)
    {a a' : Assembly} (ha : p.generate = .ok a) (ha' : p'.generate = .ok a') :
    ∃ code : String → Code, a.procedures = (Procedure.internals p.procedures).map code ∧
      a'.procedures = (Procedure.internals p'.procedures).map code ∧
      ∀ name ∈ Procedure.internals p.procedures,
        (code name).head? = some (.label (.procedure name)) ∧
        (code name).getLast? = some (.instruction .ret) := by
  have hcodes := forall₂_proceduresCode (generate_parts ha).1
  obtain ⟨code, hcode⟩ :=
    exists_map_key hcodes.length_eq (hnodup.sublist (List.filter_sublist.map _))
  rw [hcode, List.forall₂_map_right_iff, List.forall₂_same] at hcodes
  -- The code that a name has in one order is what its procedure compiles to in the other.
  refine ⟨code, by rwa [Procedure.internals, List.map_map], ?_, fun name hname => ?_⟩
  · rw [Procedure.internals, List.map_map]
    refine eq_map_of_forall₂ (forall₂_proceduresCode (generate_parts ha').1) ?_
    rintro q' hq' c ⟨body', hbody', hc⟩
    obtain ⟨hmem, hinternal⟩ := List.mem_filter.mp hq'
    obtain ⟨q, hq, rfl⟩ := h.mem_procedures.mp hmem
    rw [Procedure.isExternal_map] at hinternal
    obtain ⟨body, hbody, hown⟩ := hcodes q (List.mem_filter.mpr ⟨hq, hinternal⟩)
    rw [Procedure.body?_map, hbody] at hbody'
    cases hbody'
    rw [procedureCode_renumber (h.codeContext q) hown] at hc
    cases hc
    rw [Function.comp, Procedure.name_map]
  · obtain ⟨q, hq, rfl⟩ := List.mem_map.mp hname
    obtain ⟨body, -, hown⟩ := hcodes q hq
    exact ⟨head?_procedureCode hown, getLast?_procedureCode hown⟩

theorem literals (h : Reordered ρ p p') :
    (p.parts.filterMap Expression.literal?).Perm (p'.parts.filterMap Expression.literal?) := by
  have hperm := (h.procedures.flatMap_right fun q =>
    (q.body?.map Statement.parts).getD []).filterMap Expression.literal?
  have hsame : ((p.procedures.map (Procedure.map (Expression.renumber ρ))).flatMap fun q =>
      (q.body?.map Statement.parts).getD []).filterMap Expression.literal? =
        p.parts.filterMap Expression.literal? := by
    rw [parts, List.flatMap_map, List.filterMap_flatMap, List.filterMap_flatMap]
    refine List.flatMap_congr fun q _ => ?_
    rw [Procedure.body?_map]
    cases q.body? with
    | none => rfl
    | some body => exact body.literals_renumber ρ
  rwa [hsame] at hperm

/-- Programs in another order have the same code and data, in another order. -/
theorem generate (h : Reordered ρ p p') (hnodup : (p.procedures.map Procedure.name).Nodup)
    {a a' : Assembly} (ha : p.generate = .ok a) (ha' : p'.generate = .ok a') :
    Rearranged (Procedure.internals p.procedures) (Procedure.internals p'.procedures) a a' := by
  obtain ⟨globals, hglobals, hvars, hliterals⟩ := filter_data ha
  obtain ⟨globals', hglobals', hvars', hliterals'⟩ := filter_data ha'
  refine ⟨h.exists_code hnodup ha ha', ?_, ?_, ?_⟩
  · have hperm := (h.procedures.filter Procedure.isExternal).map Procedure.name
    rw [List.filter_map, List.map_map] at hperm
    rw [(generate_parts ha).2.1, (generate_parts ha').2.1]
    simpa [Function.comp_def] using hperm
  · obtain ⟨found, hfound, hperm⟩ :=
      List.perm_comp_forall₂ h.globals (forall₂_globalDatum hglobals')
    obtain rfl : globals = found := List.right_unique_forall₂'
      (fun d _ _ hx hy => Except.ok.inj (hx.symm.trans hy)) (forall₂_globalDatum hglobals) hfound
    rwa [hvars, hvars']
  · rw [hliterals, hliterals']
    exact h.literals.filterMap Literal.datum?

end Reordered

end Program

end ProcLang
