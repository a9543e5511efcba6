import ProcLang.Typing.Rules

/-! Checking: every expression is given its type. The first violation ends it. -/
namespace ProcLang

namespace Typing.Context

mutual

def checkExpression (c : Typing.Context) : Expression → Pass Expression TypeAt
  | .literal l => ⟨.literal l, [], .ok l.type⟩
  | .var v =>
    match c.variableType v with
    | .error fault => .stop (.var v) fault
    | .ok type => ⟨.var { v with type := some type }, [], .ok type⟩
  | .operation loc token operands none type =>
    .stop (.operation loc token operands none type) (.internal (.unboundOperation loc))
  | .operation loc token operands (some op) type =>
    match op.checkCount c loc token operands.length with
    | .error fault => .stop (.operation loc token operands (some op) type) fault
    | .ok () =>
      let checked := c.checkOperands op [] operands
      match checked.result.bind (op.judge c loc operands) with
      | .error fault =>
        ⟨.operation loc token checked.tree (some op) type, checked.events, .error fault⟩
      | .ok judgement =>
        ⟨.operation loc token checked.tree (some op) (some judgement.type),
          checked.events ++ (judgement.warning.map Event.warning).toList ++
            [.typed loc op judgement.type.ty],
          .ok judgement.type⟩

/-- Checks operands in order, given the types of those before them. -/
def checkOperands (c : Typing.Context) (op : Operator) (before : List TypeAt) :
    List Expression → Pass (List Expression) (List TypeAt)
  | [] => ⟨[], [], .ok before⟩
  | e :: es =>
    if op.wantsPlace before.length && !e.isPlace then
      .stop (e :: es) (.located e.loc (.notPlace e.display))
    else
      let first := (c.checkExpression e).require fun type => do
        op.checkOperand c before e type
        return type
      (first.andThen es fun type => c.checkOperands op (before ++ [type]) es).mapTree
        fun (e, es) => e :: es

end

/-- Conditions are boolean. -/
def checkCondition (c : Typing.Context) (e : Expression) : Pass Expression Unit :=
  (c.checkExpression e).require fun type =>
    if type.ty = .bool then .ok () else .error (.located e.loc (.condition type.ty))

/-- A returned value has the type of the procedure. -/
def checkReturn (c : Typing.Context) (loc : Nat) (e : Expression) : Pass Expression Unit :=
  (c.checkExpression e).require fun type =>
    if type.ty = c.returns.ty then .ok ()
    else .error (.located loc (.returnType type.ty c.returns.ty))

mutual

def checkStatement (c : Typing.Context) : Statement → Pass Statement Unit
  | .block loc body => (c.checkStatements body).mapTree (.block loc)
  | .ifThen loc condition yes =>
    ((c.checkCondition condition).andThen yes fun _ => c.checkStatement yes).mapTree
      fun (condition, yes) => .ifThen loc condition yes
  | .ifThenElse loc condition yes no =>
    ((c.checkCondition condition).andThen (yes, no) fun _ =>
      (c.checkStatement yes).andThen no fun _ => c.checkStatement no).mapTree
      fun (condition, yes, no) => .ifThenElse loc condition yes no
  | .loop loc condition body =>
    ((c.checkCondition condition).andThen body fun _ => c.checkStatement body).mapTree
      fun (condition, body) => .loop loc condition body
  | .ret loc none => ⟨.ret loc none, [], .ok ()⟩
  | .ret loc (some value) => (c.checkReturn loc value).mapTree fun value => .ret loc (some value)
  | .expression e => ((c.checkExpression e).require fun _ => .ok ()).mapTree .expression

def checkStatements (c : Typing.Context) : List Statement → Pass (List Statement) Unit
  | [] => ⟨[], [], .ok ()⟩
  | s :: ss =>
    ((c.checkStatement s).andThen ss fun _ => c.checkStatements ss).mapTree fun (s, ss) => s :: ss

end

end Typing.Context

/-- No variable is `void`. -/
def Declaration.check (d : Declaration) : Except Fault Unit :=
  if d.type.ty = .void then .error (.located d.loc (.voidVariable d.name)) else .ok ()

/-- Only an external procedure may end its parameters with `etcetera`. -/
def Parameter.checkAll (external : Bool) : List Parameter → Except Fault Unit
  | [] => .ok ()
  | .var d :: ps => do
    d.check
    checkAll external ps
  | .etcetera loc :: ps =>
    if !external then .error (.located loc .internalEtcetera)
    else if ps.isEmpty then .ok ()
    else .error (.located loc .misplacedEtcetera)

def Procedure.checkDeclaration (p : Procedure) : Except Fault Unit := do
  Parameter.checkAll p.isExternal p.parameters
  if !p.isExternal && maxArguments < p.parameters.length then
    .error (.located p.loc (.tooManyParameters p.name p.parameters.length))
  else p.locals.forM Declaration.check

namespace Program

def checkDeclarations (p : Program) : Except Fault Unit := do
  p.globals.forM Declaration.check
  p.procedures.forM Procedure.checkDeclaration

/-- The declarations that the body of a procedure is checked against. -/
def context (p : Program) (procedure : Procedure) : Typing.Context :=
  ⟨p.globals, procedure.parameters, procedure.locals, p.procedures.map Procedure.signature,
    procedure.returns⟩

def checkProcedure (p : Program) (procedure : Procedure) : Pass Procedure Unit :=
  match procedure.implementation with
  | .external => ⟨procedure, [], .ok ()⟩
  | .internal locals body =>
    (((p.context procedure).checkStatement body).logged
        (.checkedProcedure procedure.name)).mapTree
      fun body => { procedure with implementation := .internal locals body }

def checkProcedures (p : Program) : List Procedure → Pass (List Procedure) Unit
  | [] => ⟨[], [], .ok ()⟩
  | q :: qs =>
    ((p.checkProcedure q).andThen qs fun _ => p.checkProcedures qs).mapTree
      fun (q, qs) => q :: qs

/-- Checks all declarations, then every body, in order. The result is the warnings. -/
def check (p : Program) : Pass Program (List Warning) :=
  match p.checkDeclarations with
  | .error fault => .stop p fault
  | .ok () =>
    let checked := p.checkProcedures p.procedures
    ⟨{ p with procedures := checked.tree }, checked.events,
      checked.result.map fun _ => checked.events.filterMap Event.warning?⟩

end Program

end ProcLang
