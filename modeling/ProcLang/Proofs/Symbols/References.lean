import ProcLang.Proofs.Codegen.Sites
import ProcLang.Proofs.Symbols.Compile

/-! Labels that code refers to: all of them are defined, and no literal lies in memory in vain. -/
namespace ProcLang

open Assembly Codegen

namespace Assembly

/-- A label that is defined elsewhere, by the use that is made of it. -/
inductive Reference where
  | jump (target : Label)
  | call (target : Label)
  | data (label : Label)
  deriving DecidableEq, Repr

def Instruction.reference? : Instruction → Option Reference
  | .jumpIfEqual target | .jump target => some (.jump target)
  | .call target => some (.call target)
  | .load _ (.data label) | .loadAddress (.data label) => some (.data label)
  | _ => none

def Line.reference? : Line → Option Reference
  | .label _ => none
  | .instruction i => i.reference?

/-- The labels that some code refers to. -/
def references (code : Code) : List Reference :=
  code.filterMap Line.reference?

/-- The label of a literal. -/
def Label.isLiteral : Label → Bool
  | .character _ | .string _ => true
  | _ => false

/-- All that is referred to is defined: jumps stay in their procedure, calls go to code or to one
procedure that is linked in, and addresses are of data. Literals in the data are used. -/
structure Closed (a : Assembly) : Prop where
  jump : ∀ code ∈ a.procedures, ∀ l, .jump l ∈ references code → l.isLocal ∧ l ∈ labelsOf code
  call : ∀ code ∈ a.procedures, ∀ l, .call l ∈ references code → ∃ name, l = .procedure name ∧
    ((∃ code' ∈ a.procedures, l ∈ labelsOf code') ∨ a.externals.count name = 1)
  data : ∀ code ∈ a.procedures, ∀ l, .data l ∈ references code → l ∈ a.data.map Datum.label
  used : ∀ l ∈ a.data.map Datum.label, l.isLiteral →
    ∃ code ∈ a.procedures, .data l ∈ references code

@[simp] theorem references_nil : references [] = [] := rfl

@[simp] theorem references_append (first rest : Code) :
    references (first ++ rest) = references first ++ references rest :=
  List.filterMap_append

@[simp] theorem references_label (l : Label) (code : Code) :
    references (.label l :: code) = references code := rfl

@[simp] theorem references_instruction (i : Instruction) (code : Code) :
    references (.instruction i :: code) = i.reference?.toList ++ references code := by
  cases h : i.reference? <;> simp [references, Line.reference?, h]

@[simp] theorem references_instructions (is : List Instruction) :
    references (instructions is) = is.filterMap Instruction.reference? := by
  rw [references, instructions, List.filterMap_map]
  rfl

/-- The code of a body may refer to procedures, to globals, to its literals and to its own
labels. -/
inductive Reference.Known (g : Codegen.Context) (parts : List Expression) (labels : List Label) :
    Reference → Prop
  | jump {l : Label} (hlocal : l.isLocal) (hl : l ∈ labels) : Known g parts labels (.jump l)
  | call {q : Procedure} (hq : q ∈ g.procedures) : Known g parts labels (.call (.procedure q.name))
  | global {d : Declaration} (hd : d ∈ g.globals) : Known g parts labels (.data (.global d.name))
  | literal {l : Literal} {label : Label} (hl : .literal l ∈ parts)
      (hlabel : l.label? = some label) : Known g parts labels (.data label)

theorem Reference.Known.mono {g : Codegen.Context} {parts parts' : List Expression}
    {labels labels' : List Label} {r : Reference} (h : r.Known g parts labels)
    (hparts : parts ⊆ parts') (hlabels : labels ⊆ labels') : r.Known g parts' labels' := by
  cases h with
  | jump hlocal hl => exact .jump hlocal (hlabels hl)
  | call hq => exact .call hq
  | global hd => exact .global hd
  | literal hl hlabel => exact .literal (hparts hl) hlabel

end Assembly

namespace Codegen

variable {g : Codegen.Context} {code : Code}

theorem references_load (w : Width) (address : Address) :
    references (loadCode w address) = (Instruction.loadAddress address).reference?.toList := by
  unfold loadCode
  split <;> cases address <;> rfl

theorem references_literal {l : Literal} (h : literalCode l = .ok code) :
    references code = (l.label?.map Reference.data).toList := by
  obtain ⟨value, loc⟩ := l
  cases value with
  | integer value =>
    unfold literalCode at h
    dsimp only at h
    split at h <;> cases h <;> rfl
  | boolean value =>
    cases h
    rfl
  | character value | text bytes =>
    cases h
    rfl

theorem references_plain (op : Operator) (count : Nat) : references (plainCode op count) = [] := by
  have hfold : ∀ b, references (foldCode b count) = [] := by
    intro b
    unfold foldCode
    induction count - 1 with
    | zero => rfl
    | succ n ih => simp [List.replicate_succ, ih, Instruction.reference?]
  cases op <;> simp [plainCode, hfold, unaryCode, compareCode, divideCode, Instruction.reference?]

theorem references_call (q : Procedure) (count : Nat) :
    references (callCode q count) = [.call (.procedure q.name)] := by
  have hpops : ∀ rs : List Register,
      (rs.map Instruction.pop).filterMap Instruction.reference? = [] := by
    simp [Instruction.reference?]
  simp only [callCode, references_instructions, List.filterMap_append, hpops]
  split <;> split <;> rfl

theorem known_address {v : Variable} {address : Address} (h : g.address v = .ok address)
    {parts : List Expression} {labels : List Label} {r : Reference}
    (hr : r ∈ (Instruction.loadAddress address).reference?.toList) : r.Known g parts labels := by
  unfold Context.address at h
  dsimp only at h
  split at h
  next address' haddress =>
    cases h
    split at haddress
    next index _ =>
      obtain ⟨d, hd, rfl⟩ := Option.map_eq_some_iff.mp haddress
      obtain rfl := List.mem_singleton.mp hr
      exact .global (List.mem_of_getElem? hd)
    next =>
      obtain ⟨offset, -, rfl⟩ := Option.map_eq_some_iff.mp haddress
      cases hr
    next =>
      obtain ⟨offset, -, rfl⟩ := Option.map_eq_some_iff.mp haddress
      cases hr
    next => cases haddress
  next => cases h

theorem known_closes {op : Operator} {count : Nat} {type : Option TypeAt}
    (h : Closes g count type op code) {parts : List Expression} {labels : List Label}
    {r : Reference} (hr : r ∈ references code) : r.Known g parts labels := by
  cases h with
  | load _ _ =>
    rw [references_append, references_load] at hr
    cases hr
  | @call callee q hcallee _ =>
    rw [references_call] at hr
    obtain rfl := List.mem_singleton.mp hr
    obtain ⟨index, -, hq⟩ := Option.bind_eq_some_iff.mp hcallee
    exact .call (List.mem_of_getElem? hq)
  | plain _ =>
    rw [references_plain] at hr
    cases hr

theorem mem_references_operands {es : List Expression} (h : operandsCode g es = .ok code)
    {r : Reference} (hr : r ∈ references code) :
    ∃ e ∈ es, ∃ own, expressionCode g e = .ok own ∧ r ∈ references own := by
  induction es generalizing code with
  | nil =>
    cases h
    cases hr
  | cons e es ih =>
    rw [operandsCode] at h
    obtain ⟨rest, hrest, h⟩ := Outcome.bind_eq_ok.mp h
    obtain ⟨first, hfirst, h⟩ := Outcome.bind_eq_ok.mp h
    cases h
    rw [references_append] at hr
    rcases List.mem_append.mp hr with hr | hr
    · obtain ⟨e', he', hown⟩ := ih hrest hr
      exact ⟨e', List.mem_cons_of_mem _ he', hown⟩
    · exact ⟨e, List.mem_cons_self, first, hfirst, hr⟩

/-- What the code of an expression refers to. It jumps nowhere. -/
theorem known_expression (e : Expression) :
    (∀ code, expressionCode g e = .ok code → ∀ r ∈ references code, r.Known g e.parts []) ∧
      ∀ code, addressCode g e = .ok code → ∀ r ∈ references code, r.Known g e.parts [] := by
  induction e with
  | literal l =>
    refine ⟨fun code h r hr => ?_, fun code h => by cases h⟩
    rw [expressionCode] at h
    rw [references_literal h, Option.mem_toList] at hr
    obtain ⟨label, hlabel, rfl⟩ := Option.map_eq_some_iff.mp hr
    exact .literal (by simp) hlabel
  | var v =>
    refine ⟨fun code h r hr => ?_, fun code h r hr => ?_⟩
    · rw [expressionCode] at h
      obtain ⟨address, haddress, h⟩ := Outcome.bind_eq_ok.mp h
      obtain ⟨t, -, h⟩ := Outcome.bind_eq_ok.mp h
      obtain ⟨w, -, h⟩ := Outcome.bind_eq_ok.mp h
      cases h
      exact known_address haddress (references_load w address ▸ hr)
    · rw [addressCode] at h
      obtain ⟨address, haddress, h⟩ := Outcome.bind_eq_ok.mp h
      cases h
      exact known_address haddress (by simpa [Instruction.reference?] using hr)
  | operation loc token es op type ih =>
    have hwiden : ∀ e ∈ es, ∀ r : Reference, r.Known g e.parts [] →
        r.Known g (Expression.operation loc token es op type).parts [] :=
      fun e he r hr => hr.mono
        (fun e' he' => Expression.mem_parts_operation.mpr (.inr ⟨e, he, he'⟩)) (List.Subset.refl _)
    refine ⟨fun code h r hr => ?_, fun code h r hr => ?_⟩
    · cases op with
      | none => simp [expressionCode] at h
      | some op =>
        -- These two have an operand whose address is taken; all others need values only.
        by_cases href : op = .reference
        · subst href
          obtain ⟨e, rfl, h⟩ := expressionCode_reference h
          exact hwiden e (by simp) r ((ih e (by simp)).2 code h r hr)
        by_cases hassign : op = .assignment
        · subst hassign
          obtain ⟨target, value, rfl, targetCode, valueCode, w, htarget, hvalue, -, rfl⟩ :=
            expressionCode_assignment h
          simp only [references_append, references_instructions, List.mem_append] at hr
          rcases hr with (hr | hr) | hr
          · exact hwiden value (by simp) r ((ih value (by simp)).1 _ hvalue r hr)
          · exact hwiden target (by simp) r ((ih target (by simp)).2 _ htarget r hr)
          · cases hr
        obtain ⟨operands, tail, hoperands, htail, rfl⟩ := expressionCode_operands h href hassign
        rw [references_append] at hr
        rcases List.mem_append.mp hr with hr | hr
        · obtain ⟨e, he, own, hown, hr⟩ := mem_references_operands hoperands hr
          exact hwiden e he r ((ih e he).1 own hown r hr)
        · exact known_closes htail hr
    · obtain ⟨-, e, rfl, he⟩ := addressCode_operation h
      exact hwiden e (by simp) r ((ih e (by simp)).1 code he r hr)

theorem known_condition {e : Expression} {target : Label}
    (h : conditionCode g e target = .ok code) (hlocal : target.isLocal) {r : Reference}
    (hr : r ∈ references code) : r.Known g e.parts [target] := by
  obtain ⟨test, htest, rfl⟩ := conditionCode_iff.mp h
  rw [references_append] at hr
  rcases List.mem_append.mp hr with hr | hr
  · exact ((known_expression e).1 test htest r hr).mono (List.Subset.refl _) (List.nil_subset _)
  · obtain rfl := List.mem_singleton.mp hr
    exact .jump hlocal List.mem_cons_self

theorem mem_references_statements {ss : List Statement} (h : statementsCode g ss = .ok code)
    {r : Reference} (hr : r ∈ references code) :
    ∃ s ∈ ss, ∃ own, statementCode g s = .ok own ∧ r ∈ references own ∧
      labelsOf own ⊆ labelsOf code := by
  induction ss generalizing code with
  | nil =>
    cases h
    cases hr
  | cons s ss ih =>
    rw [statementsCode] at h
    obtain ⟨first, hfirst, h⟩ := Outcome.bind_eq_ok.mp h
    obtain ⟨rest, hrest, h⟩ := Outcome.bind_eq_ok.mp h
    cases h
    rw [references_append] at hr
    rw [labelsOf_append]
    rcases List.mem_append.mp hr with hr | hr
    · exact ⟨s, List.mem_cons_self, first, hfirst, hr, List.subset_append_left _ _⟩
    · obtain ⟨s', hs', own, hown, hr, hsubset⟩ := ih hrest hr
      exact ⟨s', List.mem_cons_of_mem _ hs', own, hown, hr,
        List.subset_append_of_subset_right _ hsubset⟩

/-- What the code of a statement refers to. It jumps to its own labels, or to the end of the
procedure. -/
theorem known_statement {s : Statement} (h : statementCode g s = .ok code) {r : Reference}
    (hr : r ∈ references code) : r.Known g s.parts (.exit :: labelsOf code) := by
  induction s generalizing code with
  | block loc body ih =>
    rw [statementCode] at h
    obtain ⟨s, hs, own, hown, hr, hsubset⟩ := mem_references_statements h hr
    refine (ih s hs hown hr).mono (fun e he => Statement.mem_parts_block.mpr ⟨s, hs, he⟩) ?_
    exact List.cons_subset_cons _ hsubset
  | ifThen loc condition yes ih =>
    rw [statementCode] at h
    obtain ⟨test, htest, h⟩ := Outcome.bind_eq_ok.mp h
    obtain ⟨yesCode, hyes, h⟩ := Outcome.bind_eq_ok.mp h
    cases h
    simp only [references_append, references_label, references_nil, List.append_nil,
      List.mem_append] at hr
    rcases hr with hr | hr
    · exact (known_condition htest rfl hr).mono (by simp) (by simp)
    · exact (ih hyes hr).mono (by simp) (List.cons_subset_cons _ fun l hl => by simp [hl])
  | ifThenElse loc condition yes no ihy ihn =>
    rw [statementCode] at h
    obtain ⟨test, htest, h⟩ := Outcome.bind_eq_ok.mp h
    obtain ⟨yesCode, hyes, h⟩ := Outcome.bind_eq_ok.mp h
    obtain ⟨noCode, hno, h⟩ := Outcome.bind_eq_ok.mp h
    cases h
    simp only [references_append, references_label, references_instruction, references_nil,
      List.append_nil, List.mem_append] at hr
    rcases hr with ((hr | hr) | hr) | hr
    · exact (known_condition htest rfl hr).mono (by simp) (by simp)
    · exact (ihy hyes hr).mono (by simp) (List.cons_subset_cons _ fun l hl => by simp [hl])
    · obtain rfl := List.mem_singleton.mp hr
      exact .jump rfl (by simp)
    · exact (ihn hno hr).mono (by simp) (List.cons_subset_cons _ fun l hl => by simp [hl])
  | loop loc condition body ih =>
    rw [statementCode] at h
    obtain ⟨test, htest, h⟩ := Outcome.bind_eq_ok.mp h
    obtain ⟨bodyCode, hbody, h⟩ := Outcome.bind_eq_ok.mp h
    cases h
    simp only [references_append, references_label, references_instruction, references_nil,
      List.nil_append, List.append_nil, List.mem_append] at hr
    rcases hr with (hr | hr) | hr
    · exact (known_condition htest rfl hr).mono (by simp) (by simp)
    · exact (ih hbody hr).mono (by simp) (List.cons_subset_cons _ fun l hl => by simp [hl])
    · obtain rfl := List.mem_singleton.mp hr
      exact .jump rfl (by simp)
  | ret loc value =>
    cases value with
    | none =>
      cases h
      obtain rfl := List.mem_singleton.mp hr
      exact .jump rfl (by simp)
    | some e =>
      rw [statementCode] at h
      obtain ⟨value, hvalue, h⟩ := Outcome.bind_eq_ok.mp h
      cases h
      rw [references_append] at hr
      rcases List.mem_append.mp hr with hr | hr
      · exact ((known_expression e).1 value hvalue r hr).mono (by simp) (by simp)
      · obtain rfl := List.mem_singleton.mp hr
        exact .jump rfl (by simp)
  | expression e =>
    rw [statementCode] at h
    obtain ⟨value, hvalue, h⟩ := Outcome.bind_eq_ok.mp h
    cases h
    rw [references_append] at hr
    rcases List.mem_append.mp hr with hr | hr
    · exact ((known_expression e).1 value hvalue r hr).mono (by simp) (by simp)
    · cases hr

theorem references_prologue {q : Procedure} {saved : Code}
    (hsaved : saveParameters q.name 0 q.parameters argumentRegisters = .ok saved) :
    references (q.prologue saved) = [] := by
  have hlocals : references (q.locals.map fun _ => .instruction .pushZero) = [] := by
    simp [references, Line.reference?, Instruction.reference?]
  have hpushes : ∀ rs : List Register,
      (rs.map Instruction.push).filterMap Instruction.reference? = [] := by
    simp [Instruction.reference?]
  rw [saveParameters_eq hsaved, Procedure.prologue]
  simp only [references_append, references_label, references_instruction,
    references_instructions, hlocals, hpushes]
  rfl

theorem references_epilogue (q : Procedure) : references q.epilogue = [] := by
  unfold Procedure.epilogue
  split <;> rfl

/-- Only the body of a procedure refers to labels. -/
theorem references_procedure {q : Procedure} {saved : Code}
    (hsaved : saveParameters q.name 0 q.parameters argumentRegisters = .ok saved)
    (bodyCode : Code) :
    references (q.prologue saved ++ bodyCode ++ q.epilogue ++ instructions [.ret]) =
      references bodyCode := by
  simp [references_prologue hsaved, references_epilogue, Instruction.reference?]

theorem known_procedure {p : Program} {q : Procedure} {body : Statement}
    (h : procedureCode (p.codeContext q) q body = .ok code) {r : Reference}
    (hr : r ∈ references code) : r.Known (p.codeContext q) body.parts (labelsOf code) := by
  obtain ⟨saved, bodyCode, hsaved, hbody, rfl⟩ := Program.procedureCode_parts h
  rw [references_procedure hsaved] at hr
  refine (known_statement hbody hr).mono (List.Subset.refl _) ?_
  rw [Program.labelsOf_procedure hsaved]
  intro l hl
  simp only [List.mem_cons, List.mem_append] at hl ⊢
  tauto

/-- A literal that lies in memory is referred to by the code of whatever it is part of. -/
theorem mem_references_literal {s : Statement} (h : statementCode g s = .ok code) {l : Literal}
    (hl : .literal l ∈ s.parts) {label : Label} (hlabel : l.label? = some label) :
    .data label ∈ references code := by
  obtain ⟨own, hown, before, after, rfl⟩ := exists_literalCode h hl
  simp [references_literal hown, hlabel]

end Codegen

theorem Literal.map_label_datum? (l : Literal) : l.datum?.map Datum.label = l.label? := by
  obtain ⟨value, loc⟩ := l
  cases value <;> rfl

namespace Program

variable {p : Program} {a : Assembly}

/-- The labels of the data are those of globals and those of literals. -/
theorem mem_data_labels (h : p.generate = .ok a) {label : Label} :
    label ∈ a.data.map Datum.label ↔ (∃ d ∈ p.globals, label = .global d.name) ∨
      ∃ l, .literal l ∈ p.parts ∧ l.label? = some label := by
  obtain ⟨-, -, globals, hglobals, hdata⟩ := generate_parts h
  have hliterals : label ∈ ((p.parts.filterMap Expression.literal?).filterMap Literal.datum?).map
      Datum.label ↔ ∃ l, .literal l ∈ p.parts ∧ l.label? = some label := by
    rw [List.map_filterMap, List.mem_filterMap]
    refine exists_congr fun l => and_congr ?_ (by rw [Literal.map_label_datum?])
    rw [List.mem_filterMap]
    constructor
    · rintro ⟨e, he, hl⟩
      cases e <;> cases hl
      exact he
    · exact fun hl => ⟨_, hl, rfl⟩
  rw [hdata, List.map_append, List.mem_append, map_label_globals hglobals, hliterals,
    List.mem_map]
  simp only [eq_comm]

/-- A procedure has code, or is linked in once. -/
theorem callee_defined (h : p.generate = .ok a) (hnodup : (p.procedures.map Procedure.name).Nodup)
    {q : Procedure} (hq : q ∈ p.procedures) :
    (∃ code ∈ a.procedures, .procedure q.name ∈ labelsOf code) ∨ a.externals.count q.name = 1 := by
  cases hbody : q.body? with
  | some body =>
    obtain ⟨code, hmem, hcode⟩ := exists_procedureCode h hq hbody
    obtain ⟨saved, bodyCode, hsaved, -, rfl⟩ := procedureCode_parts hcode
    exact .inl ⟨_, hmem, labelsOf_procedure hsaved bodyCode ▸ List.mem_cons_self⟩
  | none =>
    have hexternal : q.isExternal := by
      unfold Procedure.isExternal
      unfold Procedure.body? at hbody
      split at hbody <;> simp_all
    refine .inr ?_
    rw [(generate_parts h).2.1]
    refine List.count_eq_one_of_mem (hnodup.sublist (List.filter_sublist.map _)) ?_
    exact List.mem_map_of_mem (List.mem_filter.mpr ⟨hq, hexternal⟩)

theorem closed_of_generate (h : p.generate = .ok a)
    (hnodup : (p.procedures.map Procedure.name).Nodup) : a.Closed := by
  have hknown : ∀ code ∈ a.procedures, ∀ r ∈ references code, ∃ q ∈ p.procedures, ∃ body,
      q.body? = some body ∧ r.Known (p.codeContext q) body.parts (labelsOf code) := by
    intro code hcode r hr
    obtain ⟨q, hq, body, hbody, hown⟩ := exists_of_mem_procedures h hcode
    exact ⟨q, hq, body, hbody, known_procedure hown hr⟩
  refine ⟨fun code hcode l hl => ?_, fun code hcode l hl => ?_, fun code hcode l hl => ?_,
    fun l hl hliteral => ?_⟩
  · obtain ⟨q, -, body, -, hl⟩ := hknown code hcode _ hl
    cases hl with
    | jump hlocal hmem => exact ⟨hlocal, hmem⟩
  · obtain ⟨q, -, body, -, hl⟩ := hknown code hcode _ hl
    cases hl with
    | call hcallee => exact ⟨_, rfl, callee_defined h hnodup hcallee⟩
  · obtain ⟨q, hq, body, hbody, hl⟩ := hknown code hcode _ hl
    refine (mem_data_labels h).mpr ?_
    cases hl with
    | global hd => exact .inl ⟨_, hd, rfl⟩
    | literal hmem hlabel => exact .inr ⟨_, mem_parts.mpr ⟨q, hq, body, hbody, hmem⟩, hlabel⟩
  · rcases (mem_data_labels h).mp hl with ⟨d, -, rfl⟩ | ⟨literal, hmem, hlabel⟩
    · cases hliteral
    · obtain ⟨q, hq, body, hbody, hmem⟩ := mem_parts.mp hmem
      obtain ⟨code, hcode, hown⟩ := exists_procedureCode h hq hbody
      obtain ⟨saved, bodyCode, hsaved, hbodyCode, rfl⟩ := procedureCode_parts hown
      refine ⟨_, hcode, ?_⟩
      rw [references_procedure hsaved]
      exact mem_references_literal hbodyCode hmem hlabel

end Program

/-- Compiled sources refer to nothing that is not defined, and have no literal in memory that is
not referred to. -/
theorem compile_references_closed {source : String} {r : Compilation}
    (h : (compile source).result = .ok r) : r.assembly.Closed := by
  obtain ⟨p, hcheck, hgenerate, -, -⟩ := generate_of_compile h
  obtain ⟨tokens, parsed, hstages, hwell, rfl⟩ := exists_stages hcheck
  exact Program.closed_of_generate hgenerate (hstages.names_nodup hwell).1

namespace Greeting

/-- Data, procedures on both sides of the link, and jumps. -/
def source : String :=
  "[int n]extern int puts(char* s)proc int main()\x7bif(== 'a' 'b')(puts \"c\")" ++
  "else(= n (main))while(< n 0)return 2 return n\x7d"

def referred : List Reference :=
  [.data (.character 57), .data (.character 53), .jump (.elseBranch 47), .data (.string 67),
    .call (.procedure "puts"), .jump (.afterIfElse 47), .call (.procedure "main"),
    .data (.global "n"), .data (.global "n"), .jump (.afterLoop 87), .jump .exit,
    .jump (.loopStart 87), .data (.global "n"), .jump .exit]

theorem references_eq : ((checkSource source).result.bind fun (p, _) => p.generate.map fun a =>
    a.procedures.flatMap references) = .ok referred := by
  decide +kernel

end Greeting

open Greeting in
theorem compile_references_closed_greeting : ∃ r, (compile source).result = .ok r ∧
    r.assembly.procedures.flatMap references = referred ∧ r.assembly.Closed := by
  obtain ⟨⟨p, warnings⟩, hcheck, hreferred⟩ := Outcome.bind_eq_ok.mp references_eq
  obtain ⟨a, hgenerate, hcompile⟩ := compile_of_checkSource hcheck
  dsimp only at hreferred
  rw [hgenerate] at hreferred
  exact ⟨_, hcompile, Except.ok.inj hreferred, compile_references_closed hcompile⟩

end ProcLang
