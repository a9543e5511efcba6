import ProcLang.Codegen.Program
import ProcLang.Proofs.Typing.Program

/-! Code can be generated for every program whose types are all on record. -/
namespace ProcLang

open Codegen

namespace Codegen

/-- Everything that is declared for the types can be reached by the code. -/
structure Context.Serves (g : Codegen.Context) (c : Typing.Context) : Prop where
  address : ∀ v storage d, v.binding = some storage → c.declaration? storage = some d →
    ∃ a, g.address v = .ok a
  sized : ∀ storage d, c.declaration? storage = some d → d.type.ty ≠ .void
  callee : ∀ (index : Nat) (s : Signature), c.signatures[index]? = some s →
    ∃ q, g.procedures[index]? = some q

theorem widthOf_eq_ok {τ : Ty} (h : τ ≠ .void) : ∃ width, widthOf τ = .ok width := by
  cases τ with
  | void => exact absurd rfl h
  | int | pointer _ => exact ⟨.qword, rfl⟩
  | char | bool => exact ⟨.byte, rfl⟩

theorem literalCode_eq_ok (l : Literal) : ∃ code, literalCode l = .ok code := by
  obtain ⟨value, loc⟩ := l
  cases value with
  | integer value =>
    unfold literalCode
    dsimp only
    split <;> exact ⟨_, rfl⟩
  | _ => exact ⟨_, rfl⟩

variable {g : Codegen.Context} {c : Typing.Context}

theorem operandsCode_eq_ok {es : List Expression}
    (h : ∀ e ∈ es, ∃ code, expressionCode g e = .ok code) :
    ∃ code, operandsCode g es = .ok code := by
  induction es with
  | nil => exact ⟨[], rfl⟩
  | cons e es ih =>
    obtain ⟨rest, hrest⟩ := ih fun e he => h e (List.mem_cons_of_mem _ he)
    obtain ⟨first, hfirst⟩ := h e (by simp)
    refine ⟨rest ++ first, ?_⟩
    simp [operandsCode, hrest, hfirst]

/-- A storage location holds something of known size. -/
theorem ne_void_of_place (hg : g.Serves c) {e : Expression} {τ : Ty} (hp : e.Place)
    (h : c.HasType e τ) : τ ≠ .void := by
  cases hp with
  | var v =>
    cases h with
    | var _ hd => exact hg.sized _ _ hd
  | dereference loc token operands type =>
    cases h with
    | operation _ _ hr => exact (Operator.rule_dereference_iff.mp hr).2

theorem width_of_place (hg : g.Serves c) {e : Expression} (hp : e.Place) (hrec : c.Recorded e) :
    ∃ t width, e.type = .ok t ∧ widthOf t.ty = .ok width := by
  obtain ⟨t, ht, -, hτ⟩ := hrec
  obtain ⟨width, hw⟩ := widthOf_eq_ok (ne_void_of_place hg hp ((hτ t.ty).mpr rfl))
  exact ⟨t, width, by simp [Expression.type, ht], hw⟩

/-- No call passes more arguments than there are registers. -/
theorem accepts_length {s : Signature} {τs : List Ty} (h : s.Accepts τs) :
    τs.length ≤ Assembly.argumentRegisters.length := by
  cases h with
  | exact _ hfew => simpa [maxArguments, Assembly.argumentRegisters] using hfew
  | variadic _ hfew => simpa [maxArguments, Assembly.argumentRegisters] using hfew

/-- An expression of known type has code, and so has the address of a storage location. -/
theorem expressionCode_eq_ok (hg : g.Serves c) {e : Expression} {τ : Ty} (h : c.HasType e τ)
    (hrec : ∀ e' ∈ e.parts, c.Recorded e') :
    (∃ code, expressionCode g e = .ok code) ∧
      (e.Place → ∃ code, addressCode g e = .ok code) := by
  induction e generalizing τ with
  | literal l =>
    refine ⟨?_, fun hp => by cases hp⟩
    rw [expressionCode]
    exact literalCode_eq_ok l
  | var v =>
    obtain ⟨t, width, ht, hw⟩ := width_of_place hg (.var v) (hrec _ (by simp))
    cases h with
    | var hb hd =>
      obtain ⟨a, ha⟩ := hg.address v _ _ hb hd
      rw [expressionCode, addressCode]
      simp [ha, ht, hw]
  | operation loc token es op type ih =>
    cases h with
    | @operation _ _ _ op _ τs _ hplaces hτs hr =>
      have hself := hrec _ (Expression.self_mem_parts _)
      have hparts : ∀ e ∈ es, ∀ e' ∈ e.parts, c.Recorded e' := fun e he e' he' =>
        hrec e' (Expression.mem_parts_operation.mpr (.inr ⟨e, he, he'⟩))
      have hes : ∀ e ∈ es, ∃ code, expressionCode g e = .ok code := by
        intro e he
        obtain ⟨σ, -, hσ⟩ := exists_of_forall₂ hτs he
        exact (ih e he hσ (hparts e he)).1
      obtain ⟨operands, hoperands⟩ := operandsCode_eq_ok hes
      cases op with
      | dereference =>
        obtain ⟨rfl, hsized⟩ := Operator.rule_dereference_iff.mp hr
        obtain ⟨t, ht, -, hunique⟩ := hself
        obtain rfl : type = some t := ht
        have hτ := (hunique τ).mp (.operation hplaces hτs hr)
        obtain ⟨width, hw⟩ := widthOf_eq_ok (hτ ▸ hsized)
        cases hτs with
        | cons _ hnil =>
          cases hnil
          refine ⟨?_, fun _ => ?_⟩
          · rw [expressionCode]
            simp [hoperands, hw]
          · rw [addressCode]
            exact hes _ (by simp)
      | reference =>
        obtain ⟨σ, rfl, -⟩ := Operator.rule_reference_iff.mp hr
        refine ⟨?_, fun hp => by cases hp⟩
        cases hτs with
        | @cons e _ _ _ hσ hnil =>
          cases hnil
          rw [expressionCode]
          exact (ih e (by simp) hσ (hparts e (by simp))).2 (hplaces (.inr rfl) e rfl)
      | assignment =>
        obtain ⟨σ, rfl⟩ := Operator.rule_assignment_operands hr
        refine ⟨?_, fun hp => by cases hp⟩
        cases hτs with
        | @cons target _ _ _ hτ hrest =>
          cases hrest with
          | @cons value _ _ _ _ hnil =>
            cases hnil
            have hplace : target.Place := hplaces (.inl rfl) target rfl
            obtain ⟨valueCode, hvalue⟩ := hes value (by simp)
            obtain ⟨targetCode, htarget⟩ :=
              (ih target (by simp) hτ (hparts target (by simp))).2 hplace
            obtain ⟨t, width, ht, hw⟩ :=
              width_of_place hg hplace (hparts target (by simp) _ target.self_mem_parts)
            rw [expressionCode]
            simp [hvalue, htarget, ht, hw]
      | call callee =>
        obtain ⟨s, hs, ha, -⟩ := Operator.rule_call_iff.mp hr
        obtain ⟨index, rfl, hindex⟩ := Option.bind_eq_some_iff.mp hs
        obtain ⟨q, hq⟩ := hg.callee index s hindex
        have hlen : es.length ≤ Assembly.argumentRegisters.length := by
          rw [hτs.length_eq]
          exact accepts_length ha
        refine ⟨?_, fun hp => by cases hp⟩
        rw [expressionCode]
        simp [hq, Nat.not_lt.mpr hlen, hoperands]
      | _ =>
        refine ⟨?_, fun hp => by cases hp⟩
        rw [expressionCode]
        · simp [hoperands]
        all_goals simp

theorem conditionCode_eq_ok {e : Expression} (h : ∃ code, expressionCode g e = .ok code)
    (target : Assembly.Label) : ∃ code, conditionCode g e target = .ok code := by
  obtain ⟨code, hcode⟩ := h
  simp [conditionCode, hcode]

theorem statementsCode_eq_ok {ss : List Statement}
    (h : ∀ s ∈ ss, ∃ code, statementCode g s = .ok code) :
    ∃ code, statementsCode g ss = .ok code := by
  induction ss with
  | nil => exact ⟨[], rfl⟩
  | cons s ss ih =>
    obtain ⟨first, hfirst⟩ := h s (by simp)
    obtain ⟨rest, hrest⟩ := ih fun s hs => h s (List.mem_cons_of_mem _ hs)
    refine ⟨first ++ rest, ?_⟩
    simp [statementsCode, hfirst, hrest]

theorem statementCode_eq_ok (hg : g.Serves c) {s : Statement} (h : c.WellTyped s)
    (hrec : ∀ e ∈ s.parts, c.Recorded e) : ∃ code, statementCode g s = .ok code := by
  have hexpr : ∀ {e τ}, c.HasType e τ → (∀ e' ∈ e.parts, c.Recorded e') →
      ∃ code, expressionCode g e = .ok code := fun he hr => (expressionCode_eq_ok hg he hr).1
  induction h with
  | @block loc body _ ih =>
    rw [statementCode]
    refine statementsCode_eq_ok fun s hs => ih s hs fun e he => ?_
    exact hrec e (Statement.mem_parts_block.mpr ⟨s, hs, he⟩)
  | @ifThen loc condition yes ht _ ih =>
    simp only [Statement.parts_ifThen, List.forall_mem_append] at hrec
    obtain ⟨test, htest⟩ := conditionCode_eq_ok (hexpr ht hrec.1) (.afterIf loc)
    obtain ⟨yesCode, hyes⟩ := ih hrec.2
    simp [statementCode, htest, hyes]
  | @ifThenElse loc condition yes no ht _ _ ihy ihn =>
    simp only [Statement.parts_ifThenElse, List.forall_mem_append] at hrec
    obtain ⟨test, htest⟩ := conditionCode_eq_ok (hexpr ht hrec.1.1) (.elseBranch loc)
    obtain ⟨yesCode, hyes⟩ := ihy hrec.1.2
    obtain ⟨noCode, hno⟩ := ihn hrec.2
    simp [statementCode, htest, hyes, hno]
  | @loop loc condition body ht _ ih =>
    simp only [Statement.parts_loop, List.forall_mem_append] at hrec
    obtain ⟨test, htest⟩ := conditionCode_eq_ok (hexpr ht hrec.1) (.afterLoop loc)
    obtain ⟨bodyCode, hbody⟩ := ih hrec.2
    simp [statementCode, htest, hbody]
  | ret loc => exact ⟨_, rfl⟩
  | retValue ht =>
    rw [Statement.parts_ret_some] at hrec
    obtain ⟨code, hcode⟩ := hexpr ht hrec
    simp [statementCode, hcode]
  | expression ht =>
    rw [Statement.parts_expression] at hrec
    obtain ⟨code, hcode⟩ := hexpr ht hrec
    simp [statementCode, hcode]

/-- Parameters with a value each fit into the registers, if these are enough. -/
theorem saveParameters_eq_ok {ps : List Parameter} (hvars : ∀ q ∈ ps, ∃ d, q = .var d)
    {rs : List Assembly.Register} (hlen : ps.length ≤ rs.length) (name : String) (index : Nat) :
    ∃ code, saveParameters name index ps rs = .ok code := by
  induction ps generalizing rs index with
  | nil => exact ⟨[], rfl⟩
  | cons q ps ih =>
    cases rs with
    | nil => simp at hlen
    | cons r rs =>
      obtain ⟨d, rfl⟩ := hvars q (by simp)
      obtain ⟨rest, hrest⟩ :=
        ih (fun q hq => hvars q (by simp [hq])) (by simpa using hlen) (index + 1)
      simp [saveParameters, hrest]

end Codegen

theorem Frame.length_locals (q : Procedure) : (ofProcedure q).locals.length = q.locals.length := by
  simp [ofProcedure, layout]

theorem Frame.length_parameters (q : Procedure) :
    (ofProcedure q).parameters.length = q.parameters.length := by
  simp [ofProcedure, layout]

theorem exists_getElem? {xs : List α} {ys : List β} {index : Nat} {x : α}
    (hx : xs[index]? = some x) (hlen : ys.length = xs.length) : ∃ y, ys[index]? = some y := by
  have hlt := (List.getElem?_eq_some_iff.mp hx).1
  exact ⟨ys[index], List.getElem?_eq_getElem (by omega)⟩

namespace Program

variable {p : Program}

theorem serves (h : p.WellTyped) {q : Procedure} (hq : q ∈ p.procedures) :
    (p.codeContext q).Serves (p.context q) := by
  refine ⟨?_, ?_, ?_⟩
  · intro v storage d hb hd
    unfold Codegen.Context.address
    rw [hb]
    cases storage with
    | global index =>
      have hg : p.globals[index]? = some d := hd
      simp [codeContext, hg]
    | localVar index =>
      have hl : q.locals[index]? = some d := hd
      obtain ⟨offset, ho⟩ := exists_getElem? hl (Frame.length_locals q)
      simp [codeContext, ho]
    | parameter index =>
      obtain ⟨r, hr, -⟩ := Option.bind_eq_some_iff.mp hd
      have hr' : q.parameters[index]? = some r := hr
      obtain ⟨offset, ho⟩ := exists_getElem? hr' (Frame.length_parameters q)
      simp [codeContext, ho]
  · intro storage d hd
    cases storage with
    | global index =>
      have hg : p.globals[index]? = some d := hd
      exact h.globals d (List.mem_of_getElem? hg)
    | localVar index =>
      have hl : q.locals[index]? = some d := hd
      exact h.locals q hq d (List.mem_of_getElem? hl)
    | parameter index =>
      obtain ⟨r, hr, hd⟩ := Option.bind_eq_some_iff.mp hd
      have hr' : q.parameters[index]? = some r := hr
      cases r with
      | var d' =>
        cases hd
        exact h.parameters q hq d (List.mem_of_getElem? hr')
      | etcetera loc => cases hd
  · intro index s hs
    have hs' : (p.procedures.map Procedure.signature)[index]? = some s := hs
    rw [List.getElem?_map, Option.map_eq_some_iff] at hs'
    obtain ⟨r, hr, -⟩ := hs'
    exact ⟨r, hr⟩

theorem procedureCode_eq_ok (h : p.WellTyped) (hrec : p.Recorded) {q : Procedure}
    (hq : q ∈ p.procedures) {locals : List Declaration} {body : Statement}
    (himpl : q.implementation = .internal locals body) :
    ∃ code, procedureCode (p.codeContext q) q body = .ok code := by
  have hinternal : ¬q.isExternal := by simp [Procedure.isExternal, himpl]
  have hbody : q.body? = some body := by simp [Procedure.body?, himpl]
  have hvars : ∀ r ∈ q.parameters, ∃ d, r = .var d := by
    intro r hr
    cases r with
    | var d => exact ⟨d, rfl⟩
    | etcetera loc =>
      obtain ⟨i, hi⟩ := List.getElem?_of_mem hr
      exact absurd (h.etcetera q hq i loc hi).1 hinternal
  have hlen : q.parameters.length ≤ Assembly.argumentRegisters.length := h.few q hq hinternal
  obtain ⟨saved, hsaved⟩ := saveParameters_eq_ok hvars hlen q.name 0
  obtain ⟨code, hcode⟩ := statementCode_eq_ok (serves h hq) (h.bodies q hq body hbody)
    (hrec q hq body hbody)
  simp [procedureCode, hsaved, hcode]

/-- Code can be generated where the rules are kept and all types are on record. -/
theorem generate_eq_ok (h : p.WellTyped) (hrec : p.Recorded) : ∃ a, p.generate = .ok a := by
  have hprocs : ∀ qs, (∀ q ∈ qs, q ∈ p.procedures) → ∃ codes, p.proceduresCode qs = .ok codes := by
    intro qs hqs
    induction qs with
    | nil => exact ⟨[], rfl⟩
    | cons q qs ih =>
      obtain ⟨rest, hrest⟩ := ih fun q hq => hqs q (List.mem_cons_of_mem _ hq)
      rw [proceduresCode]
      cases himpl : q.implementation with
      | external => exact ⟨rest, hrest⟩
      | internal locals body =>
        obtain ⟨code, hcode⟩ := procedureCode_eq_ok h hrec (hqs q (by simp)) himpl
        simp [hcode, hrest]
  have hglobals : ∃ data, p.globals.mapM globalDatum = .ok data := by
    have hall := h.globals
    generalize p.globals = ds at hall
    induction ds with
    | nil => exact ⟨[], rfl⟩
    | cons d ds ih =>
      obtain ⟨width, hw⟩ := widthOf_eq_ok (hall d (by simp))
      obtain ⟨rest, hrest⟩ := ih fun d hd => hall d (by simp [hd])
      simp [List.mapM_cons, globalDatum, hw, hrest]
  obtain ⟨codes, hcodes⟩ := hprocs p.procedures fun _ hq => hq
  obtain ⟨data, hdata⟩ := hglobals
  simp [generate, hcodes, hdata]

/-- Code can be generated for whatever passes the check, also for trees that no source has. -/
theorem generate_of_check {warnings : List Warning} (h : p.check.result = .ok warnings) :
    ∃ a, p.check.tree.generate = .ok a := by
  obtain ⟨hwell, hrec⟩ := check_tree_wellTyped (check_eq_ok.mp ⟨warnings, h⟩)
  exact generate_eq_ok hwell hrec

end Program

namespace Stray

/-- No tables, names that nothing declares, types that are wrong, an addition of nothing and a
negation of two numbers. -/
def program : Program :=
  let token : Token := ⟨.name, "nothing", 7⟩
  let sum : Expression := .operation 1 token [] (some .addition) (some (.bool 1))
  let negated : Expression := .operation 2 token [sum, sum] (some .negation) none
  let called : Expression := .operation 3 token [negated] (some (.call (some 1))) none
  let target : Expression := .var ⟨"nothing", 4, some (.global 0), some (.char 4)⟩
  let body : Statement :=
    .expression (.operation 5 token [target, called] (some .assignment) none)
  ⟨[⟨"g", .int 0, 0⟩],
    [⟨"f", 0, .int 0, [], .internal [] body, []⟩,
      ⟨"f", 0, .int 0, [.var ⟨"x", .int 0, 0⟩, .etcetera 0], .external, []⟩], [], []⟩

end Stray

theorem Program.generate_of_check_stray : Stray.program.check.result = .ok [] ∧
    ∃ a, Stray.program.check.tree.generate = .ok a := by
  have hcheck : Stray.program.check.result = .ok [] := rfl
  exact ⟨hcheck, generate_of_check hcheck⟩

end ProcLang
