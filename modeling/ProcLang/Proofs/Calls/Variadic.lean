import ProcLang.Proofs.Symbols.References

/-! Callees that take any number of arguments. Checking finds them by their signature and code by
their last parameter, and both find the same ones. -/
namespace ProcLang

open Assembly Codegen

/-- How the number of arguments of a call is compared. -/
inductive CountRule where
  | exactly (count : Nat)
  | atLeast (count : Nat)
  deriving DecidableEq, Repr

def CountRule.Allows : CountRule → Nat → Prop
  | .exactly wanted, count => count = wanted
  | .atLeast wanted, count => wanted ≤ count

namespace Signature

def countRule (s : Signature) : CountRule :=
  if s.isVariadic then .atLeast s.fixed else .exactly s.fixed

theorem countRule_eq_atLeast {s : Signature} :
    s.countRule = .atLeast s.fixed ↔ s.isVariadic = true := by
  rw [countRule]
  cases s.isVariadic <;> simp

theorem checkCount_iff_allows {s : Signature} {loc count : Nat} :
    s.checkCount loc count = .ok () ↔ count ≤ maxArguments ∧ s.countRule.Allows count := by
  rw [checkCount_eq_ok, countRule]
  cases s.isVariadic <;> rfl

end Signature

/-- A call in a body, by the index of its callee. -/
structure Call where
  callee : Option Nat
  arguments : List Expression

/-- A call in code, with the line before it. -/
structure Assembly.CallSite where
  previous : Option Line
  target : Label
  deriving DecidableEq, Repr

namespace Expression

def call? : Expression → Option Call
  | .operation _ _ operands (some (.call callee)) _ => some ⟨callee, operands⟩
  | _ => none

theorem call?_eq_some {e : Expression} {call : Call} :
    e.call? = some call ↔ ∃ loc token type,
      e = .operation loc token call.arguments (some (.call call.callee)) type := by
  constructor
  · intro h
    unfold call? at h
    split at h
    · cases h
      exact ⟨_, _, _, rfl⟩
    · cases h
  · rintro ⟨loc, token, type, rfl⟩
    rfl

/-- The calls in an expression, in the order of their code. -/
def calls (e : Expression) : List Call :=
  e.parts.reverse.filterMap call?

theorem calls_operation (loc : Nat) (token : Token) (es : List Expression) (op : Option Operator)
    (type : Option TypeAt) :
    (operation loc token es op type).calls =
      es.reverse.flatMap calls ++ (operation loc token es op type).call?.toList := by
  unfold calls
  rw [parts, List.reverse_cons, List.filterMap_append, operandParts_eq_flatMap,
    List.reverse_flatMap, List.filterMap_flatMap]
  rfl

end Expression

/-- The calls in a statement, in the order of their code. -/
def Statement.calls (s : Statement) : List Call :=
  s.expressions.flatMap Expression.calls

theorem Statement.calls_block (loc : Nat) (body : List Statement) :
    (block loc body).calls = body.flatMap calls := by
  rw [calls, expressions, allExpressions_eq_flatMap, List.flatMap_assoc]
  rfl

namespace Assembly

def Line.callee? : Line → Option Label
  | .instruction (.call target) => some target
  | _ => none

/-- The calls in some code that stands behind a line. -/
def callSites (previous : Option Line) : Code → List CallSite
  | [] => []
  | line :: code => (line.callee?.map (CallSite.mk previous)).toList ++ callSites (some line) code

theorem callSites_append (previous : Option Line) (first rest : Code) :
    callSites previous (first ++ rest) =
      callSites previous first ++ callSites (first.getLast?.or previous) rest := by
  induction first generalizing previous with
  | nil => rfl
  | cons line first ih =>
    rw [List.cons_append, callSites, callSites, ih, List.append_assoc, List.getLast?_cons]
    cases first.getLast? <;> rfl

/-- Code that refers to nothing by a call has none. -/
theorem callSites_eq_nil {code : Code} (h : ∀ target, .call target ∉ references code)
    (previous : Option Line) : callSites previous code = [] := by
  induction code generalizing previous with
  | nil => rfl
  | cons line code ih =>
    have hline : line.callee? = none := by
      cases line with
      | label l => rfl
      | instruction i =>
        cases i with
        | call target => exact absurd (by simp [Instruction.reference?]) (h target)
        | _ => rfl
    rw [callSites, hline, ih fun target hmem => h target ?_]
    · rfl
    · exact (List.sublist_cons_self line code).filterMap _ |>.subset hmem

end Assembly

namespace Codegen

variable {g : Codegen.Context} {code : Code}

/-- The code of a call names its callee, and clears `rax` just before if that is variadic. -/
def Context.CallsAt (g : Codegen.Context) (call : Call) (site : CallSite) : Prop :=
  ∃ q, call.callee.bind (g.procedures[·]?) = some q ∧ site.target = .procedure q.name ∧
    (site.previous = some (.instruction (.moveValue .rax 0)) ↔ q.isVariadic = true)

/-- Code has some calls, one each and in this order, whatever stands before it. -/
def Context.Sited (g : Codegen.Context) (calls : List Call) (code : Code) : Prop :=
  ∀ previous, List.Forall₂ g.CallsAt calls (callSites previous code)

theorem Context.Sited.append {calls calls' : List Call} {code' : Code} (h : g.Sited calls code)
    (h' : g.Sited calls' code') : g.Sited (calls ++ calls') (code ++ code') := by
  intro previous
  rw [callSites_append]
  exact List.rel_append (h previous) (h' _)

theorem sited_nil (h : ∀ target, .call target ∉ references code) : g.Sited [] code := by
  intro previous
  rw [callSites_eq_nil h]
  exact .nil

theorem Context.Sited.followed {calls : List Call} {rest : Code} (h : g.Sited calls code)
    (hrest : ∀ target, .call target ∉ references rest) : g.Sited calls (code ++ rest) := by
  have happend := h.append (sited_nil hrest)
  rwa [List.append_nil] at happend

theorem callSites_callCode (previous : Option Line) (q : Procedure) (count : Nat) :
    callSites previous (callCode q count) =
      [⟨some (.instruction (if q.isVariadic then .moveValue .rax 0 else .push .r10)),
        .procedure q.name⟩] := by
  have hpops : ∀ (rs : List Register) (target : Label),
      .call target ∉ references (instructions (rs.map .pop)) := by
    simp [Instruction.reference?]
  unfold callCode
  simp only [instructions, List.map_append, List.append_assoc] at hpops ⊢
  rw [callSites_append, callSites_eq_nil (hpops _)]
  cases q.isVariadic <;> by_cases hbyte : q.returns.ty.width? = some .byte <;>
    simp [callSites, Line.callee?, hbyte]

theorem sited_callCode {callee : Option Nat} {q : Procedure}
    (hcallee : callee.bind (g.procedures[·]?) = some q) (arguments : List Expression)
    (count : Nat) : g.Sited [⟨callee, arguments⟩] (callCode q count) := by
  intro previous
  rw [callSites_callCode]
  refine .cons ⟨q, hcallee, rfl, ?_⟩ .nil
  cases q.isVariadic <;> simp

/-- What follows the operands calls if the operation is a call. -/
theorem sited_closes {loc count : Nat} {token : Token} {es : List Expression} {op : Operator}
    {type : Option TypeAt} (h : Closes g count type op code) :
    g.Sited (Expression.operation loc token es (some op) type).call?.toList code := by
  cases h with
  | load htype hwidth => exact sited_nil (by simp [references_load, Instruction.reference?])
  | call hcallee hfew => exact sited_callCode hcallee es count
  | plain hplain =>
    have hnone : (Expression.operation loc token es (some op) type).call? = none := by
      cases op <;> first | rfl | cases hplain
    rw [hnone]
    exact sited_nil (by simp [references_plain])

theorem sited_operands {es : List Expression}
    (h : ∀ e ∈ es, ∀ code, expressionCode g e = .ok code → g.Sited e.calls code)
    (hcode : operandsCode g es = .ok code) :
    g.Sited (es.reverse.flatMap Expression.calls) code := by
  induction es generalizing code with
  | nil =>
    cases hcode
    exact sited_nil (by simp)
  | cons e es ih =>
    rw [operandsCode] at hcode
    obtain ⟨rest, hrest, hcode⟩ := Outcome.bind_eq_ok.mp hcode
    obtain ⟨first, hfirst, hcode⟩ := Outcome.bind_eq_ok.mp hcode
    cases hcode
    rw [List.reverse_cons, List.flatMap_append, List.flatMap_singleton]
    exact (ih (fun e he => h e (by simp [he])) hrest).append (h e (by simp) first hfirst)

theorem sited_expression (e : Expression) :
    (∀ code, expressionCode g e = .ok code → g.Sited e.calls code) ∧
      ∀ code, addressCode g e = .ok code → g.Sited e.calls code := by
  have hstore : ∀ (w : Width) (target : Label),
      .call target ∉ references (instructions [.pop .rcx, .pop .rax, .store w, .push .rax]) := by
    simp [Instruction.reference?]
  induction e with
  | literal l =>
    refine ⟨fun code h => ?_, fun code h => by cases h⟩
    rw [expressionCode] at h
    exact sited_nil (by simp [references_literal h])
  | var v =>
    refine ⟨fun code h => ?_, fun code h => ?_⟩
    · rw [expressionCode] at h
      obtain ⟨place, -, h⟩ := Outcome.bind_eq_ok.mp h
      obtain ⟨t, -, h⟩ := Outcome.bind_eq_ok.mp h
      obtain ⟨w, -, h⟩ := Outcome.bind_eq_ok.mp h
      cases h
      refine sited_nil ?_
      cases place <;> simp [references_load, Instruction.reference?]
    · rw [addressCode] at h
      obtain ⟨place, -, h⟩ := Outcome.bind_eq_ok.mp h
      cases h
      refine sited_nil ?_
      cases place <;> simp [Instruction.reference?]
  | operation loc token es op type ih =>
    rw [Expression.calls_operation]
    refine ⟨fun code h => ?_, fun code h => ?_⟩
    · cases op with
      | none => simp [expressionCode] at h
      | some op =>
        by_cases href : op = .reference
        · subst href
          obtain ⟨e, rfl, h⟩ := expressionCode_reference h
          simpa [Expression.call?] using (ih e (by simp)).2 code h
        by_cases hassign : op = .assignment
        · subst hassign
          obtain ⟨target, value, rfl, targetCode, valueCode, w, htarget, hvalue, -, rfl⟩ :=
            expressionCode_assignment h
          have hvalue := (ih value (by simp)).1 _ hvalue
          have htarget := (ih target (by simp)).2 _ htarget
          have hcalls := (hvalue.append htarget).followed (hstore w)
          simpa [Expression.call?] using hcalls
        obtain ⟨operands, tail, hoperands, htail, rfl⟩ := expressionCode_operands h href hassign
        exact (sited_operands (fun e he => (ih e he).1) hoperands).append (sited_closes htail)
    · obtain ⟨rfl, e, rfl, he⟩ := addressCode_operation h
      simpa [Expression.call?] using (ih e (by simp)).1 code he

theorem sited_condition {e : Expression} {target : Label}
    (h : conditionCode g e target = .ok code) : g.Sited e.calls code := by
  obtain ⟨test, htest, rfl⟩ := conditionCode_iff.mp h
  exact ((sited_expression e).1 test htest).followed (by simp [Instruction.reference?])

theorem sited_statements {ss : List Statement}
    (h : ∀ s ∈ ss, ∀ code, statementCode g s = .ok code → g.Sited s.calls code)
    (hcode : statementsCode g ss = .ok code) : g.Sited (ss.flatMap Statement.calls) code := by
  induction ss generalizing code with
  | nil =>
    cases hcode
    exact sited_nil (by simp)
  | cons s ss ih =>
    rw [statementsCode] at hcode
    obtain ⟨first, hfirst, hcode⟩ := Outcome.bind_eq_ok.mp hcode
    obtain ⟨rest, hrest, hcode⟩ := Outcome.bind_eq_ok.mp hcode
    cases hcode
    rw [List.flatMap_cons]
    exact (h s (by simp) first hfirst).append (ih (fun s hs => h s (by simp [hs])) hrest)

theorem sited_statement {s : Statement} (h : statementCode g s = .ok code) :
    g.Sited s.calls code := by
  induction s generalizing code with
  | block loc body ih =>
    rw [statementCode] at h
    rw [Statement.calls_block]
    exact sited_statements (fun s hs code => ih s hs) h
  | ifThen loc condition yes ih =>
    rw [statementCode] at h
    obtain ⟨test, htest, h⟩ := Outcome.bind_eq_ok.mp h
    obtain ⟨yesCode, hyes, h⟩ := Outcome.bind_eq_ok.mp h
    cases h
    rw [Statement.calls, Statement.expressions, List.flatMap_cons]
    exact ((sited_condition htest).append (ih hyes)).followed (by simp)
  | ifThenElse loc condition yes no ihy ihn =>
    rw [statementCode] at h
    obtain ⟨test, htest, h⟩ := Outcome.bind_eq_ok.mp h
    obtain ⟨yesCode, hyes, h⟩ := Outcome.bind_eq_ok.mp h
    obtain ⟨noCode, hno, h⟩ := Outcome.bind_eq_ok.mp h
    cases h
    rw [Statement.calls, Statement.expressions, List.flatMap_append, List.flatMap_cons]
    have hjump : ∀ target, .call target ∉
        references [.instruction (.jump (.afterIfElse loc)), .label (.elseBranch loc)] := by
      simp [Instruction.reference?]
    have hleft := ((sited_condition htest).append (ihy hyes)).followed hjump
    exact (hleft.append (ihn hno)).followed (by simp)
  | loop loc condition body ih =>
    rw [statementCode] at h
    obtain ⟨test, htest, h⟩ := Outcome.bind_eq_ok.mp h
    obtain ⟨bodyCode, hbody, h⟩ := Outcome.bind_eq_ok.mp h
    cases h
    rw [Statement.calls, Statement.expressions, List.flatMap_cons]
    have hstart : g.Sited [] [.label (.loopStart loc)] := sited_nil (by simp)
    exact ((hstart.append (sited_condition htest)).append (ih hbody)).followed
      (by simp [Instruction.reference?])
  | ret loc value =>
    cases value with
    | none =>
      cases h
      exact sited_nil (by simp [Instruction.reference?])
    | some e =>
      rw [statementCode] at h
      obtain ⟨value, hvalue, h⟩ := Outcome.bind_eq_ok.mp h
      cases h
      rw [Statement.calls, Statement.expressions, Option.toList_some, List.flatMap_singleton]
      exact ((sited_expression e).1 value hvalue).followed (by simp [Instruction.reference?])
  | expression e =>
    rw [statementCode] at h
    obtain ⟨value, hvalue, h⟩ := Outcome.bind_eq_ok.mp h
    cases h
    rw [Statement.calls, Statement.expressions, List.flatMap_singleton]
    exact ((sited_expression e).1 value hvalue).followed (by simp [Instruction.reference?])

theorem sited_procedure {p : Program} {q : Procedure} {body : Statement}
    (h : procedureCode (p.codeContext q) q body = .ok code) :
    (p.codeContext q).Sited body.calls code := by
  obtain ⟨saved, bodyCode, hsaved, hbody, rfl⟩ := Program.procedureCode_parts h
  have hprologue : (p.codeContext q).Sited [] (q.prologue saved) :=
    sited_nil (by simp [references_prologue hsaved])
  exact ((hprologue.append (sited_statement hbody)).followed
    (by simp [references_epilogue q])).followed (by simp [Instruction.reference?])

end Codegen

/-- Parameters that keep the rule on `etcetera` have it at the end or not at all. -/
theorem Parameter.exists_declarations {ps : List Parameter}
    (h : ∀ i loc, ps[i]? = some (.etcetera loc) → i + 1 = ps.length) :
    ∃ ds : List Declaration, ps = ds.map .var ∨ ∃ loc, ps = ds.map .var ++ [.etcetera loc] := by
  induction ps with
  | nil => exact ⟨[], .inl rfl⟩
  | cons p ps ih =>
    cases p with
    | var d =>
      have hrest : ∀ i loc, ps[i]? = some (.etcetera loc) → i + 1 = ps.length := by
        intro i loc hi
        have hlength := h (i + 1) loc hi
        rwa [List.length_cons, Nat.add_right_cancel_iff] at hlength
      obtain ⟨ds, rfl | ⟨loc, rfl⟩⟩ := ih hrest
      · exact ⟨d :: ds, .inl rfl⟩
      · exact ⟨d :: ds, .inr ⟨loc, rfl⟩⟩
    | etcetera loc =>
      have hlength := h 0 loc rfl
      obtain rfl : ps = [] := by
        rw [List.length_cons, Nat.add_right_cancel_iff] at hlength
        exact List.length_eq_zero_iff.mp hlength.symm
      exact ⟨[], .inr ⟨loc, rfl⟩⟩

/-- The parameters before `etcetera` are what a signature has as fixed. If only the last parameter
may be `etcetera`, there is one if and only if that is. -/
theorem Procedure.exists_fixed {q : Procedure}
    (h : ∀ i loc, q.parameters[i]? = some (.etcetera loc) → i + 1 = q.parameters.length) :
    ∃ ds : List Declaration, (∀ i < ds.length, q.parameters[i]? = ds[i]?.map .var) ∧
      q.signature.parameters.takeWhile Option.isSome = (ds.map Declaration.type).map some ∧
      q.isVariadic = q.signature.isVariadic ∧
      ds.length + (if q.isVariadic then 1 else 0) = q.parameters.length := by
  obtain ⟨ds, hds | ⟨loc, hds⟩⟩ := Parameter.exists_declarations h
  · have hsignature : q.signature.parameters = (ds.map Declaration.type).map some := by
      simp [Procedure.signature, hds, Parameter.declaration?]
    have hown : q.isVariadic = false := by
      rw [Procedure.isVariadic, hds, List.getLast?_map]
      cases ds.getLast? <;> rfl
    refine ⟨ds, by simp [hds], ?_, ?_, by simp [hown, hds]⟩
    · rw [hsignature, List.takeWhile_eq_self_iff]
      simp
    · simp [hown, Signature.isVariadic, hsignature]
  · have hsignature : q.signature.parameters = (ds.map Declaration.type).map some ++ [none] := by
      simp [Procedure.signature, hds, Parameter.declaration?]
    have hown : q.isVariadic = true := by
      rw [Procedure.isVariadic, hds, List.getLast?_concat]
      rfl
    refine ⟨ds, fun i hi => ?_, ?_, ?_, by simp [hown, hds]⟩
    · rw [hds, List.getElem?_append_left (by simpa using hi), List.getElem?_map]
    · rw [hsignature, List.takeWhile_append_of_pos (by simp)]
      simp
    · simp [hown, Signature.isVariadic, hsignature]

/-- A call as it was checked, and the place of its code. Before the code, `rax` is cleared for
callees that take more arguments than they have parameters, and for no others. -/
structure Program.CalledAt (p : Program) (callee : Procedure) (call : Call) (site : CallSite) :
    Prop where
  found : call.callee.bind (p.procedures[·]?) = some callee
  target : site.target = .procedure callee.name
  cleared : site.previous = some (.instruction (.moveValue .rax 0)) ↔
    callee.signature.countRule = .atLeast callee.signature.fixed
  counted : callee.signature.countRule.Allows call.arguments.length
  typed : ∀ i < callee.signature.fixed, ∃ argument d t, call.arguments[i]? = some argument ∧
    callee.parameters[i]? = some (.var d) ∧ argument.type? = some t ∧ t.ty = d.type.ty

/-- Recorded types are those that operands have. -/
theorem Typing.Context.exists_recorded {c : Typing.Context} {es : List Expression} {τs : List Ty}
    (h : List.Forall₂ c.HasType es τs) (hrec : ∀ e ∈ es, c.Recorded e) :
    ∃ ts : List TypeAt, List.Forall₂ (fun e t => e.type? = some t) es ts ∧
      ts.map TypeAt.ty = τs := by
  induction h with
  | nil => exact ⟨[], .nil, rfl⟩
  | cons he _ ih =>
    obtain ⟨t, ht, -, htyped⟩ := hrec _ List.mem_cons_self
    obtain ⟨ts, hts, rfl⟩ := ih fun e he => hrec e (by simp [he])
    exact ⟨t :: ts, .cons ht hts, by rw [List.map_cons, (htyped _).mp he]⟩

namespace Program

variable {p : Program} {q callee : Procedure} {body : Statement}

/-- The types that are on record for the arguments of a call. -/
theorem accepts_recorded (hrec : p.Recorded) (hq : q ∈ p.procedures) (hbody : q.body? = some body)
    {call : Call} (hcall : call ∈ body.calls)
    (hcallee : call.callee.bind (p.procedures[·]?) = some callee) :
    ∃ ts : List TypeAt, List.Forall₂ (fun e t => e.type? = some t) call.arguments ts ∧
      callee.signature.Accepts (ts.map TypeAt.ty) := by
  obtain ⟨e, he, hcall⟩ := List.mem_flatMap.mp hcall
  obtain ⟨e', he', hcall⟩ := List.mem_filterMap.mp hcall
  have hpart : e' ∈ body.parts := Statement.mem_parts.mpr ⟨e, he, List.mem_reverse.mp he'⟩
  obtain ⟨loc, token, type, rfl⟩ := Expression.call?_eq_some.mp hcall
  obtain ⟨t, -, -, htyped⟩ := hrec q hq body hbody _ hpart
  cases (htyped t.ty).mpr rfl with
  | operation _ typed rule =>
    obtain ⟨s, hs, haccepts, -⟩ := Operator.rule_call_iff.mp rule
    have hsignature : callee.signature = s := by
      obtain ⟨index, hindex, hfound⟩ := Option.bind_eq_some_iff.mp hcallee
      simpa [hindex, context, hfound] using hs
    obtain ⟨ts, hts, rfl⟩ := Typing.Context.exists_recorded typed fun argument hargument =>
      hrec q hq body hbody argument (Statement.parts_subset hpart
        (Expression.mem_parts_operation.mpr
          (.inr ⟨argument, hargument, argument.self_mem_parts⟩)))
    exact ⟨ts, hts, hsignature ▸ haccepts⟩

theorem calledAt (hwell : p.WellTyped) (hrec : p.Recorded) (hq : q ∈ p.procedures)
    (hbody : q.body? = some body) {call : Call} (hcall : call ∈ body.calls) {site : CallSite}
    (hsite : (p.codeContext q).CallsAt call site) : ∃ callee, p.CalledAt callee call site := by
  obtain ⟨callee, hcallee, htarget, hcleared⟩ := hsite
  obtain ⟨ts, hts, haccepts⟩ := accepts_recorded hrec hq hbody hcall hcallee
  obtain ⟨hcount, hwanted⟩ := (Signature.accepts_iff 0).mpr haccepts
  obtain ⟨index, -, hindex⟩ := Option.bind_eq_some_iff.mp hcallee
  obtain ⟨ds, hparameters, hfixed, hvariadic, -⟩ := callee.exists_fixed fun i loc hi =>
    (hwell.etcetera callee (List.mem_of_getElem? hindex) i loc hi).2
  refine ⟨callee, hcallee, htarget, ?_, ?_, ?_⟩
  · rw [hcleared, hvariadic, Signature.countRule_eq_atLeast]
  · rw [hts.length_eq]
    exact (Signature.checkCount_iff_allows.mp hcount).2
  · intro i hi
    rw [Signature.fixed_of_takeWhile hfixed, List.length_map] at hi
    have hargument : i < call.arguments.length := by
      rw [hts.length_eq]
      rw [Signature.checkCount_eq_ok, Signature.fixed_of_takeWhile hfixed, List.length_map]
        at hcount
      split at hcount <;> omega
    have htype : i < ts.length := hts.length_eq ▸ hargument
    refine ⟨call.arguments[i], ds[i], ts[i], List.getElem?_eq_getElem hargument, ?_,
      hts.get hargument htype, ?_⟩
    · rw [hparameters i hi, List.getElem?_eq_getElem hi, Option.map_some]
    · refine hwanted i ts[i] ds[i].type (List.getElem?_eq_getElem htype) ?_
      rw [Signature.wanted?_of_takeWhile hfixed, List.getElem?_map, List.getElem?_eq_getElem hi,
        Option.map_some]

/-- Checking and code hold the same procedures for variadic. A call of such a procedure has at least
as many arguments as there are parameters before the last, a call of any other as many as it has
parameters. Code clears the accumulator right before calls of the former, and only there. -/
theorem variadic_agrees {ws : List Warning} (h : p.check.result = .ok ws) :
    (∀ q ∈ p.procedures, q.isVariadic = q.signature.isVariadic ∧
      q.signature.fixed + (if q.isVariadic then 1 else 0) = q.parameters.length) ∧
    (∀ (s : Signature) loc count,
      s.checkCount loc count = .ok () ↔ count ≤ maxArguments ∧ s.countRule.Allows count) ∧
    ∃ a, p.check.tree.generate = .ok a ∧
      List.Forall₂ (fun q code => ∃ body, q.body? = some body ∧
        List.Forall₂ (fun call site => ∃ callee, p.check.tree.CalledAt callee call site)
          body.calls (callSites none code))
        (p.check.tree.procedures.filter (!·.isExternal)) a.procedures := by
  have hwell := check_eq_ok.mp ⟨ws, h⟩
  obtain ⟨hwell', hrec⟩ := check_tree_wellTyped hwell
  obtain ⟨a, ha⟩ := generate_eq_ok hwell' hrec
  refine ⟨fun q hq => ?_, fun s loc count => Signature.checkCount_iff_allows, a, ha, ?_⟩
  · obtain ⟨ds, -, hfixed, hvariadic, hlength⟩ := q.exists_fixed fun i loc hi =>
      (hwell.etcetera q hq i loc hi).2
    refine ⟨hvariadic, ?_⟩
    rw [Signature.fixed_of_takeWhile hfixed, List.length_map, hlength]
  · refine forall₂_imp_of_mem (forall₂_proceduresCode (generate_parts ha).1) ?_
    rintro q hq code ⟨body, hbody, hcode⟩
    refine ⟨body, hbody, forall₂_imp_of_mem (sited_procedure hcode none) ?_⟩
    intro call hcall site hsite
    exact calledAt hwell' hrec (List.mem_of_mem_filter hq) hbody hcall hsite

end Program

namespace Logging

def call (loc : Nat) (name : String) (index : Nat) (arguments : List Expression) : Expression :=
  .operation loc ⟨.name, name, loc + 1⟩ arguments (some (.call (some index))) none

def log : Procedure :=
  ⟨"log", 0, .int 1, [.var ⟨"format", .pointer (.char 2) 3, 4⟩, .etcetera 5], .external,
    [("format", .var (.parameter 0))]⟩

def square : Procedure :=
  ⟨"square", 6, .int 7, [.var ⟨"n", .int 8, 9⟩], .external, [("n", .var (.parameter 0))]⟩

/-- Logs the square of three and one more number. -/
def main : Procedure :=
  ⟨"main", 10, .int 11, [], .internal [] (.block 12 [
    .expression (call 13 "log" 0 [.literal ⟨.text [37, 100], 18⟩,
      call 22 "square" 1 [.literal ⟨.integer 3, 30⟩], .literal ⟨.integer 4, 33⟩])]), []⟩

def program : Program :=
  ⟨[], [log, square, main], [],
    [("log", .procedure 0), ("square", .procedure 1), ("main", .procedure 2)]⟩

theorem check_eq : program.check.result = .ok [] := by
  decide +kernel

end Logging

open Logging in
theorem Program.variadic_agrees_logging : program.check.result = .ok [] ∧
    (log.isVariadic = log.signature.isVariadic ∧ log.signature.fixed + 1 = 2) ∧
    ∃ a code first second, program.check.tree.generate = .ok a ∧ a.procedures = [code] ∧
      callSites none code = [first, second] ∧
      first.previous ≠ some (.instruction (.moveValue .rax 0)) ∧
      second.previous = some (.instruction (.moveValue .rax 0)) := by
  obtain ⟨hsame, -, a, ha, hcodes⟩ := variadic_agrees check_eq
  refine ⟨check_eq, hsame log (by simp [program]), ?_⟩
  obtain ⟨checked, body, inner, outer, hchecked, hbody, hcalls, hinner, houter⟩ :
      ∃ checked body inner outer,
        program.check.tree.procedures.filter (!·.isExternal) = [checked] ∧
        checked.body? = some body ∧ body.calls = [inner, outer] ∧
        inner.callee = some 1 ∧ outer.callee = some 0 :=
    ⟨_, _, _, _, rfl, rfl, rfl, rfl, rfl⟩
  rw [hchecked] at hcodes
  obtain ⟨code, _, ⟨body', hbody', hsites⟩, hnone, hprocedures⟩ :=
    List.forall₂_cons_left_iff.mp hcodes
  cases hnone
  cases hbody.symm.trans hbody'
  rw [hcalls] at hsites
  obtain ⟨first, _, ⟨callee, hfirst⟩, hrest, hsites⟩ := List.forall₂_cons_left_iff.mp hsites
  obtain ⟨second, _, ⟨callee', hsecond⟩, hnone, rfl⟩ := List.forall₂_cons_left_iff.mp hrest
  cases hnone
  have hsquare : some square = some callee := by
    rw [← hfirst.found, hinner]
    rfl
  have hlog : some log = some callee' := by
    rw [← hsecond.found, houter]
    rfl
  cases hsquare
  cases hlog
  refine ⟨a, code, first, second, ha, hprocedures, hsites, ?_, hsecond.cleared.mpr rfl⟩
  rw [Ne, hfirst.cleared]
  decide

end ProcLang
