import ProcLang.Codegen.Expression
import ProcLang.Tree.Traversal

/-! Code of statements, procedures and whole programs. -/
namespace ProcLang

open Assembly

namespace Codegen

/-- Code that jumps if a condition is false. -/
def conditionCode (c : Context) (condition : Expression) (target : Label) :
    Except Fault Code := do
  let code ← expressionCode c condition
  return code ++ instructions [.pop .rax, .test, .jumpIfEqual target]

mutual

/-- Code of a statement; it leaves the stack as it was. -/
def statementCode (c : Context) : Statement → Except Fault Code
  | .block _ body => statementsCode c body
  | .ifThen loc condition yes => do
    let test ← conditionCode c condition (.afterIf loc)
    let yes ← statementCode c yes
    return test ++ yes ++ [.label (.afterIf loc)]
  | .ifThenElse loc condition yes no => do
    let test ← conditionCode c condition (.elseBranch loc)
    let yes ← statementCode c yes
    let no ← statementCode c no
    return test ++ yes ++
      [.instruction (.jump (.afterIfElse loc)), .label (.elseBranch loc)] ++ no ++
      [.label (.afterIfElse loc)]
  | .loop loc condition body => do
    let test ← conditionCode c condition (.afterLoop loc)
    let body ← statementCode c body
    return [.label (.loopStart loc)] ++ test ++ body ++
      [.instruction (.jump (.loopStart loc)), .label (.afterLoop loc)]
  | .ret _ none => .ok (instructions [.jump .exit])
  | .ret _ (some value) => do
    let code ← expressionCode c value
    return code ++ instructions [.pop .rax, .jump .exit]
  | .expression e => do
    let code ← expressionCode c e
    return code ++ instructions [.drop wordSize]

def statementsCode (c : Context) : List Statement → Except Fault Code
  | [] => .ok []
  | s :: ss => do
    let first ← statementCode c s
    let rest ← statementsCode c ss
    return first ++ rest

end

/-- Saves each parameter from its register, counting from `index`. -/
def saveParameters (procedure : String) (index : Nat) :
    List Parameter → List Register → Except Fault Code
  | [], _ => .ok []
  | .var _ :: ps, r :: rs => do
    let rest ← saveParameters procedure (index + 1) ps rs
    return .instruction (.push r) :: rest
  | _ :: _, _ => .error (.internal (.noRegister index procedure))

/-- Code of a whole procedure. Locals start at zero. -/
def procedureCode (c : Context) (p : Procedure) (body : Statement) : Except Fault Code := do
  let parameters ← saveParameters p.name 0 p.parameters argumentRegisters
  let code ← statementCode c body
  return [.label (.procedure p.name), .instruction (.push .rbp)] ++
    p.locals.map (fun _ => .instruction .pushZero) ++ parameters ++
    instructions [.move .rbp .rsp] ++ code ++ [.label .exit] ++
    instructions ([.move .rsp .rbp] ++ (if 0 < c.frame.size then [.drop c.frame.size] else []) ++
      [.pop .rbp, .ret])

/-- A global starts at zero. -/
def globalDatum (d : Declaration) : Except Fault Datum := do
  let width ← widthOf d.type.ty
  return ⟨.global d.name, width, [0]⟩

end Codegen

namespace Program

/-- What the code of a procedure depends on. -/
def codeContext (p : Program) (procedure : Procedure) : Codegen.Context :=
  ⟨p.globals, p.procedures, .ofProcedure procedure⟩

/-- Code of each procedure that has a body. -/
def proceduresCode (p : Program) : List Procedure → Except Fault (List Code)
  | [] => .ok []
  | q :: qs =>
    match q.implementation with
    | .external => p.proceduresCode qs
    | .internal _ body => do
      let first ← Codegen.procedureCode (p.codeContext q) q body
      let rest ← p.proceduresCode qs
      return first :: rest

/-- Code for all procedures, and data for all globals and literals. -/
def generate (p : Program) : Except Fault Assembly := do
  let procedures ← p.proceduresCode p.procedures
  let globals ← p.globals.mapM Codegen.globalDatum
  return {
    externals := (p.procedures.filter Procedure.isExternal).map Procedure.name
    procedures
    data := globals ++ (p.parts.filterMap Expression.literal?).filterMap Literal.datum? }

end Program

end ProcLang
