import Mathlib.Tactic.SplitIfs
import ProcLang.Proofs.Codegen.Shape
import ProcLang.Proofs.Relocation.Basic

/-! Generating code commutes with relocation: positions end in the names of labels, and nowhere
else. -/
namespace ProcLang

open Assembly Outcome

section

variable (f : Nat → Nat)

namespace Assembly

def Label.relocate : Label → Label
  | .procedure name => .procedure name
  | .exit => .exit
  | .afterIf loc => .afterIf (f loc)
  | .elseBranch loc => .elseBranch (f loc)
  | .afterIfElse loc => .afterIfElse (f loc)
  | .loopStart loc => .loopStart (f loc)
  | .afterLoop loc => .afterLoop (f loc)
  | .global name => .global name
  | .character loc => .character (f loc)
  | .string loc => .string (f loc)

def Address.relocate : Address → Address
  | .data label => .data (label.relocate f)
  | address => address

def Instruction.relocate : Instruction → Instruction
  | .load width address => .load width (address.relocate f)
  | .loadAddress address => .loadAddress (address.relocate f)
  | .jumpIfEqual target => .jumpIfEqual (target.relocate f)
  | .jump target => .jump (target.relocate f)
  | .call target => .call (target.relocate f)
  | i => i

def Line.relocate : Line → Line
  | .label l => .label (l.relocate f)
  | .instruction i => .instruction (i.relocate f)

def Code.relocate (code : Code) : Code :=
  code.map (Line.relocate f)

def Datum.relocate (d : Datum) : Datum :=
  { d with label := d.label.relocate f }

/-- The same lines with other positions in their labels. -/
def relocate (a : Assembly) : Assembly :=
  ⟨a.externals, a.procedures.map (Code.relocate f), a.data.map (Datum.relocate f)⟩

end Assembly

def Codegen.Context.relocate (c : Codegen.Context) : Codegen.Context :=
  ⟨c.globals.map (Declaration.relocate f), c.procedures.map (Procedure.relocate f), c.frame⟩

end

variable {f : Nat → Nat}

@[simp] theorem Assembly.Code.relocate_append (first rest : Code) :
    Code.relocate f (first ++ rest) = Code.relocate f first ++ Code.relocate f rest :=
  List.map_append

theorem Assembly.Code.ok_append_relocate {first rest rest' : Code}
    (h : rest' = Code.relocate f rest) :
    (.ok (Code.relocate f first ++ rest') : Except Fault Code) =
      Outcome.relocate f (Code.relocate f) (.ok (first ++ rest)) := by
  rw [h, ← relocate_append]
  rfl

namespace Codegen

@[simp] theorem instructions_relocate (is : List Instruction) :
    Code.relocate f (instructions is) = instructions (is.map (Instruction.relocate f)) := by
  simp only [Code.relocate, instructions, List.map_map]
  rfl

theorem loadCode_relocate (width : Width) (address : Address) :
    loadCode width (address.relocate f) = Code.relocate f (loadCode width address) := by
  unfold loadCode
  rw [instructions_relocate]
  split <;> rfl

theorem widthOf_relocate (type : TypeAt) :
    widthOf (type.relocate f).ty = Outcome.relocate f id (widthOf type.ty) := by
  rw [TypeAt.ty_relocate]
  unfold widthOf
  cases type.ty.width? <;> rfl

theorem address_relocate (c : Context) (v : Variable) :
    (c.relocate f).address (v.relocate f) =
      Outcome.relocate f (Address.relocate f) (c.address v) := by
  obtain ⟨name, loc, binding, type⟩ := v
  cases binding with
  | none => rfl
  | some storage =>
    cases storage with
    | global index =>
      simp only [Context.address, Context.relocate, Variable.relocate, List.getElem?_map]
      cases c.globals[index]? <;> rfl
    | localVar index =>
      simp only [Context.address, Context.relocate, Variable.relocate]
      cases c.frame.locals[index]? <;> rfl
    | parameter index =>
      simp only [Context.address, Context.relocate, Variable.relocate]
      cases c.frame.parameters[index]? <;> rfl

theorem literalCode_relocate (l : Literal) :
    literalCode (l.relocate f) = Outcome.relocate f (Code.relocate f) (literalCode l) := by
  obtain ⟨value, loc⟩ := l
  cases value with
  | integer value =>
    simp only [literalCode, Literal.relocate]
    split <;> rfl
  | boolean value => rfl
  | character value =>
    refine bind_relocate (g := Label.relocate f) rfl fun label => ?_
    refine bind_relocate (widthOf_relocate (.char loc)) fun width => ?_
    exact congrArg Except.ok (loadCode_relocate width (.data label))
  | text bytes => rfl

/-- Code without labels stays as it is. -/
theorem plainCode_relocate (op : Operator) (count : Nat) :
    Code.relocate f (plainCode op count) = plainCode op count := by
  have hfold : ∀ b, Code.relocate f (foldCode b count) = foldCode b count := by
    intro b
    simp only [foldCode, Code.relocate, List.map_flatten, List.map_replicate]
    rfl
  cases op with
  | addition | subtraction | multiplication | bitwiseAnd | bitwiseOr | bitwiseXor | logicalAnd
  | logicalOr | shiftLeft | shiftRight => exact hfold _
  | _ => rfl

theorem callCode_relocate (callee : Procedure) (count : Nat) :
    callCode (callee.relocate f) count = Code.relocate f (callCode callee count) := by
  have hvariadic : (callee.relocate f).isVariadic = callee.isVariadic := by
    simp only [Procedure.isVariadic, Procedure.relocate, List.getLast?_map]
    cases callee.parameters.getLast? with
    | none => rfl
    | some p => cases p <;> rfl
  have hreturns : (callee.relocate f).returns.ty = callee.returns.ty :=
    callee.returns.ty_relocate f
  have hpops : ((argumentRegisters.take count).map Instruction.pop).map (Instruction.relocate f) =
      (argumentRegisters.take count).map Instruction.pop := by
    rw [List.map_map]
    rfl
  unfold callCode
  rw [hvariadic, hreturns, instructions_relocate]
  simp only [List.map_append, hpops]
  split_ifs <;> rfl

theorem type_relocate (e : Expression) :
    (e.relocate f).type = Outcome.relocate f (TypeAt.relocate f) e.type := by
  simp only [Expression.type, Expression.type?_relocate, Expression.display_relocate]
  cases e.type? <;> rfl

variable (c : Context)

theorem operandsCode_relocate {es : List Expression}
    (ih : ∀ e ∈ es, expressionCode (c.relocate f) (e.relocate f) =
      Outcome.relocate f (Code.relocate f) (expressionCode c e)) :
    operandsCode (c.relocate f) (es.map (Expression.relocate f)) =
      Outcome.relocate f (Code.relocate f) (operandsCode c es) := by
  induction es with
  | nil => rfl
  | cons e es ihs =>
    rw [List.map_cons, operandsCode, operandsCode]
    refine bind_relocate (ihs fun e' he' => ih e' (List.mem_cons_of_mem _ he')) fun rest => ?_
    refine bind_relocate (ih e List.mem_cons_self) fun first => ?_
    exact Code.ok_append_relocate rfl

section

variable {es : List Expression} (loc : Nat) (token : Token) (type : Option TypeAt)

theorem addressCode_operation_relocate (op : Option Operator)
    (ih : ∀ e ∈ es, expressionCode (c.relocate f) (e.relocate f) =
      Outcome.relocate f (Code.relocate f) (expressionCode c e)) :
    addressCode (c.relocate f) ((Expression.operation loc token es op type).relocate f) =
      Outcome.relocate f (Code.relocate f)
        (addressCode c (.operation loc token es op type)) := by
  by_cases hop : op = some .dereference
  · subst hop
    rw [Expression.relocate, Expression.relocateAll_eq_map]
    rcases es with _ | ⟨e, _ | ⟨e', es⟩⟩
    · rfl
    · exact ih e List.mem_cons_self
    · rfl
  · have hshown := Expression.display_relocate f (.operation loc token es op type)
    rw [Expression.relocate] at hshown ⊢
    rw [addressCode_of_ne hop, addressCode_of_ne hop, hshown]
    rfl

theorem expressionCode_operation_relocate (op : Operator)
    (ih : ∀ e ∈ es, expressionCode (c.relocate f) (e.relocate f) =
        Outcome.relocate f (Code.relocate f) (expressionCode c e) ∧
      addressCode (c.relocate f) (e.relocate f) =
        Outcome.relocate f (Code.relocate f) (addressCode c e)) :
    expressionCode (c.relocate f)
        ((Expression.operation loc token es (some op) type).relocate f) =
      Outcome.relocate f (Code.relocate f)
        (expressionCode c (.operation loc token es (some op) type)) := by
  have hoperands := operandsCode_relocate c fun e he => (ih e he).1
  rw [Expression.relocate, Expression.relocateAll_eq_map]
  cases op with
  | dereference =>
    rw [expressionCode, expressionCode]
    refine bind_relocate hoperands fun code => ?_
    cases type with
    | none => rfl
    | some type =>
      refine bind_relocate (widthOf_relocate type) fun width => ?_
      have hload : loadCode width .pointer = Code.relocate f (loadCode width .pointer) :=
        loadCode_relocate width .pointer
      simp only [pure_eq, Outcome.relocate, Code.relocate_append, instructions_relocate, ← hload]
      rfl
  | reference =>
    rcases es with _ | ⟨e, _ | ⟨e', es⟩⟩
    · rfl
    · exact (ih e List.mem_cons_self).2
    · rfl
  | assignment =>
    rcases es with _ | ⟨target, _ | ⟨value, _ | ⟨e, es⟩⟩⟩
    · rfl
    · rfl
    · rw [List.map_cons, List.map_cons, List.map_nil, expressionCode, expressionCode]
      refine bind_relocate (ih value (by simp)).1 fun valueCode => ?_
      refine bind_relocate (ih target (by simp)).2 fun targetCode => ?_
      refine bind_relocate (type_relocate target) fun type => ?_
      refine bind_relocate (widthOf_relocate type) fun width => ?_
      simp only [pure_eq, Outcome.relocate, Code.relocate_append, instructions_relocate]
      rfl
    · rfl
  | call callee =>
    have hcallee : callee.bind ((c.relocate f).procedures[·]?) =
        (callee.bind (c.procedures[·]?)).map (Procedure.relocate f) := by
      cases callee with
      | none => rfl
      | some index => exact List.getElem?_map
    rw [expressionCode, expressionCode, hcallee, List.length_map]
    cases callee.bind (c.procedures[·]?) with
    | none => rfl
    | some q =>
      dsimp only [Option.map_some]
      split
      · rfl
      · refine bind_relocate hoperands fun code => ?_
        exact Code.ok_append_relocate (callCode_relocate q es.length)
  | _ =>
    rw [expressionCode_plain rfl, expressionCode_plain rfl, List.length_map]
    refine bind_relocate hoperands fun code => ?_
    exact Code.ok_append_relocate (plainCode_relocate _ es.length).symm

end

/-- The code of an expression, and the code of its address. -/
theorem expressionCode_relocate (e : Expression) :
    expressionCode (c.relocate f) (e.relocate f) =
        Outcome.relocate f (Code.relocate f) (expressionCode c e) ∧
      addressCode (c.relocate f) (e.relocate f) =
        Outcome.relocate f (Code.relocate f) (addressCode c e) := by
  induction e with
  | literal l =>
    rw [Expression.relocate, expressionCode, expressionCode]
    exact ⟨literalCode_relocate l, rfl⟩
  | var v =>
    have htype := type_relocate (f := f) (.var v)
    rw [Expression.relocate] at htype
    rw [Expression.relocate, expressionCode, expressionCode, addressCode, addressCode]
    constructor
    · refine bind_relocate (address_relocate c v) fun address => ?_
      refine bind_relocate htype fun type => ?_
      refine bind_relocate (widthOf_relocate type) fun width => ?_
      exact congrArg Except.ok (loadCode_relocate width address)
    · exact bind_relocate (address_relocate c v) fun address => rfl
  | operation loc token es op type ih =>
    constructor
    · cases op with
      | none => rfl
      | some op => exact expressionCode_operation_relocate c loc token type op ih
    · exact addressCode_operation_relocate c loc token type op fun e he => (ih e he).1

theorem conditionCode_relocate (e : Expression) (target : Label) :
    conditionCode (c.relocate f) (e.relocate f) (target.relocate f) =
      Outcome.relocate f (Code.relocate f) (conditionCode c e target) := by
  refine bind_relocate (expressionCode_relocate c e).1 fun code => ?_
  exact Code.ok_append_relocate rfl

theorem statementsCode_relocate {ss : List Statement}
    (ih : ∀ s ∈ ss, statementCode (c.relocate f) (s.relocate f) =
      Outcome.relocate f (Code.relocate f) (statementCode c s)) :
    statementsCode (c.relocate f) (ss.map (Statement.relocate f)) =
      Outcome.relocate f (Code.relocate f) (statementsCode c ss) := by
  induction ss with
  | nil => rfl
  | cons s ss ihs =>
    rw [List.map_cons, statementsCode, statementsCode]
    refine bind_relocate (ih s List.mem_cons_self) fun first => ?_
    refine bind_relocate (ihs fun s' hs' => ih s' (List.mem_cons_of_mem _ hs')) fun rest => ?_
    exact Code.ok_append_relocate rfl

theorem statementCode_relocate (s : Statement) :
    statementCode (c.relocate f) (s.relocate f) =
      Outcome.relocate f (Code.relocate f) (statementCode c s) := by
  induction s with
  | block loc body ih =>
    rw [Statement.relocate, Statement.relocateAll_eq_map, statementCode, statementCode]
    exact statementsCode_relocate c ih
  | ifThen loc condition yes ih =>
    rw [Statement.relocate, statementCode, statementCode]
    refine bind_relocate (conditionCode_relocate c condition (.afterIf loc)) fun test => ?_
    refine bind_relocate ih fun yesCode => ?_
    simp only [pure_eq, Outcome.relocate, Code.relocate_append]
    rfl
  | ifThenElse loc condition yes no ihy ihn =>
    rw [Statement.relocate, statementCode, statementCode]
    refine bind_relocate (conditionCode_relocate c condition (.elseBranch loc)) fun test => ?_
    refine bind_relocate ihy fun yesCode => ?_
    refine bind_relocate ihn fun noCode => ?_
    simp only [pure_eq, Outcome.relocate, Code.relocate_append]
    rfl
  | loop loc condition body ih =>
    rw [Statement.relocate, statementCode, statementCode]
    refine bind_relocate (conditionCode_relocate c condition (.afterLoop loc)) fun test => ?_
    refine bind_relocate ih fun bodyCode => ?_
    simp only [pure_eq, Outcome.relocate, Code.relocate_append]
    rfl
  | ret loc value =>
    cases value with
    | none => rfl
    | some e =>
      rw [Statement.relocate, Option.map_some, statementCode, statementCode]
      refine bind_relocate (expressionCode_relocate c e).1 fun code => ?_
      exact Code.ok_append_relocate rfl
  | expression e =>
    rw [Statement.relocate, statementCode, statementCode]
    refine bind_relocate (expressionCode_relocate c e).1 fun code => ?_
    exact Code.ok_append_relocate rfl

theorem saveParameters_relocate (name : String) (index : Nat) (ps : List Parameter)
    (rs : List Register) :
    saveParameters name index (ps.map (Parameter.relocate f)) rs =
      Outcome.relocate f (Code.relocate f) (saveParameters name index ps rs) := by
  induction ps generalizing index rs with
  | nil => rfl
  | cons p ps ih =>
    cases p with
    | etcetera loc => cases rs <;> rfl
    | var d =>
      cases rs with
      | nil => rfl
      | cons r rs => exact bind_relocate (ih (index + 1) rs) fun _ => rfl

theorem procedureCode_relocate (q : Procedure) (body : Statement) :
    procedureCode (c.relocate f) (q.relocate f) (body.relocate f) =
      Outcome.relocate f (Code.relocate f) (procedureCode c q body) := by
  refine bind_relocate (saveParameters_relocate q.name 0 q.parameters _) fun saved => ?_
  refine bind_relocate (statementCode_relocate c body) fun code => ?_
  have hlocals : ((q.relocate f).locals.map fun _ => Line.instruction .pushZero) =
      Code.relocate f (q.locals.map fun _ => Line.instruction .pushZero) := by
    rw [Procedure.locals_relocate, Code.relocate, List.map_map, List.map_map]
    rfl
  have hdrop : ∀ size, (if 0 < size then [Instruction.drop size] else []).map
      (Instruction.relocate f) = if 0 < size then [.drop size] else [] := by
    intro size
    split <;> rfl
  rw [hlocals]
  simp only [pure_eq, Outcome.relocate, Code.relocate_append, instructions_relocate,
    List.map_append, hdrop]
  rfl

theorem globalDatum_relocate (d : Declaration) :
    globalDatum (d.relocate f) = Outcome.relocate f (Datum.relocate f) (globalDatum d) :=
  bind_relocate (widthOf_relocate d.type) fun _ => rfl

end Codegen

theorem Literal.datum?_relocate (l : Literal) :
    (l.relocate f).datum? = l.datum?.map (Datum.relocate f) := by
  obtain ⟨value, loc⟩ := l
  cases value <;> rfl

namespace Program

theorem codeContext_relocate (p : Program) (q : Procedure) :
    (p.relocate f).codeContext (q.relocate f) = (p.codeContext q).relocate f := by
  have hframe : Frame.ofProcedure (q.relocate f) = Frame.ofProcedure q := by
    rw [Frame.ofProcedure, Procedure.locals_relocate, List.length_map]
    simp only [Procedure.relocate, List.length_map]
    rfl
  rw [codeContext, hframe]
  rfl

theorem proceduresCode_relocate (p : Program) (qs : List Procedure) :
    (p.relocate f).proceduresCode (qs.map (Procedure.relocate f)) =
      Outcome.relocate f (List.map (Code.relocate f)) (p.proceduresCode qs) := by
  induction qs with
  | nil => rfl
  | cons q qs ih =>
    have hcode : ∀ body, Codegen.procedureCode ((p.relocate f).codeContext (q.relocate f))
        (q.relocate f) (Statement.relocate f body) =
          Outcome.relocate f (Code.relocate f)
            (Codegen.procedureCode (p.codeContext q) q body) := by
      intro body
      rw [codeContext_relocate]
      exact Codegen.procedureCode_relocate (p.codeContext q) q body
    rw [List.map_cons, proceduresCode, proceduresCode]
    obtain ⟨name, loc, returns, parameters, implementation, symbols⟩ := q
    cases implementation with
    | external => exact ih
    | internal locals body =>
      refine Outcome.bind_relocate (hcode body) fun first => ?_
      exact Outcome.bind_relocate ih fun rest => rfl

theorem mapM_globalDatum_relocate (ds : List Declaration) :
    (ds.map (Declaration.relocate f)).mapM Codegen.globalDatum =
      Outcome.relocate f (List.map (Datum.relocate f)) (ds.mapM Codegen.globalDatum) := by
  induction ds with
  | nil => rfl
  | cons d ds ih =>
    rw [List.map_cons, List.mapM_cons, List.mapM_cons]
    refine Outcome.bind_relocate (Codegen.globalDatum_relocate d) fun first => ?_
    exact Outcome.bind_relocate ih fun rest => rfl

theorem generate_relocate (p : Program) :
    (p.relocate f).generate = Outcome.relocate f (Assembly.relocate f) p.generate := by
  have hexternals : ((p.relocate f).procedures.filter Procedure.isExternal).map Procedure.name =
      (p.procedures.filter Procedure.isExternal).map Procedure.name := by
    have hexternal : Procedure.isExternal ∘ Procedure.relocate f = Procedure.isExternal :=
      funext (Procedure.isExternal_relocate f)
    rw [relocate, List.filter_map, hexternal, List.map_map]
    rfl
  have hliterals : ((p.relocate f).parts.filterMap Expression.literal?).filterMap Literal.datum? =
      ((p.parts.filterMap Expression.literal?).filterMap Literal.datum?).map
        (Datum.relocate f) := by
    rw [parts_relocate, filterMap_map_comm (Expression.literal?_relocate f),
      filterMap_map_comm Literal.datum?_relocate]
  unfold generate
  rw [hexternals, hliterals]
  refine Outcome.bind_relocate (p.proceduresCode_relocate p.procedures) fun codes => ?_
  refine Outcome.bind_relocate (mapM_globalDatum_relocate p.globals) fun globals => ?_
  simp only [pure_eq, Outcome.relocate, Assembly.relocate, List.map_append]

end Program

end ProcLang
