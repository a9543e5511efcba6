import ProcLang.Tree.Program

/-! Changes to a program between passes. Tables are left as they are. -/
namespace ProcLang

namespace Statement

mutual

/-- Changes the expressions that a statement evaluates, in order, with a state passed along. -/
def mapAccum (f : σ → Expression → σ × Expression) (state : σ) : Statement → σ × Statement
  | .block loc body =>
    let (state, body) := mapAccumAll f state body
    (state, .block loc body)
  | .ifThen loc condition yes =>
    let (state, condition) := f state condition
    let (state, yes) := mapAccum f state yes
    (state, .ifThen loc condition yes)
  | .ifThenElse loc condition yes no =>
    let (state, condition) := f state condition
    let (state, yes) := mapAccum f state yes
    let (state, no) := mapAccum f state no
    (state, .ifThenElse loc condition yes no)
  | .loop loc condition body =>
    let (state, condition) := f state condition
    let (state, body) := mapAccum f state body
    (state, .loop loc condition body)
  | .ret loc none => (state, .ret loc none)
  | .ret loc (some value) =>
    let (state, value) := f state value
    (state, .ret loc (some value))
  | .expression e =>
    let (state, e) := f state e
    (state, .expression e)

def mapAccumAll (f : σ → Expression → σ × Expression) (state : σ) :
    List Statement → σ × List Statement
  | [] => (state, [])
  | s :: ss =>
    let (state, s) := mapAccum f state s
    let (state, ss) := mapAccumAll f state ss
    (state, s :: ss)

end

end Statement

namespace Expression

mutual

/-- Every operation keeps at most so many operands. -/
def truncate (count : Nat) : Expression → Expression
  | .literal l => .literal l
  | .var v => .var v
  | .operation loc token operands operator type =>
    .operation loc token (truncateAll count count operands) operator type

/-- Keeps the first `left` operands. -/
def truncateAll (count : Nat) : (left : Nat) → List Expression → List Expression
  | 0, _ => []
  | _ + 1, [] => []
  | left + 1, e :: es => e.truncate count :: truncateAll count left es

end

mutual

/-- Forgets all types. -/
def clearTypes : Expression → Expression
  | .literal l => .literal l
  | .var v => .var { v with type := none }
  | .operation loc token operands operator _ =>
    .operation loc token (clearAllTypes operands) operator none

def clearAllTypes : List Expression → List Expression
  | [] => []
  | e :: es => e.clearTypes :: clearAllTypes es

end

mutual

/-- Replaces the operator of one operation. The state counts the operations before it and is
`none` once the replacement is made. -/
def setOperator (operator : Option Operator) : Option Nat → Expression → Option Nat × Expression
  | none, e => (none, e)
  | some index, .literal l => (some index, .literal l)
  | some index, .var v => (some index, .var v)
  | some 0, .operation loc token operands _ type =>
    (none, .operation loc token operands operator type)
  | some (index + 1), .operation loc token operands old type =>
    let (index?, operands) := setOperatorAmong operator (some index) operands
    (index?, .operation loc token operands old type)

def setOperatorAmong (operator : Option Operator) :
    Option Nat → List Expression → Option Nat × List Expression
  | index?, [] => (index?, [])
  | index?, e :: es =>
    let (index?, e) := setOperator operator index? e
    let (index?, es) := setOperatorAmong operator index? es
    (index?, e :: es)

end

end Expression

namespace Procedure

def mapAccum (f : σ → Expression → σ × Expression) (state : σ) (p : Procedure) : σ × Procedure :=
  match p.implementation with
  | .external => (state, p)
  | .internal locals body =>
    let (state, body) := body.mapAccum f state
    (state, { p with implementation := .internal locals body })

/-- Without the last parameter, if there is one. -/
def popParameter? (p : Procedure) : Option Procedure :=
  if p.parameters.isEmpty then none else some { p with parameters := p.parameters.dropLast }

/-- Without the last local, if there is one. -/
def popLocal? (p : Procedure) : Option Procedure :=
  match p.implementation with
  | .internal (d :: ds) body => some { p with implementation := .internal (d :: ds).dropLast body }
  | _ => none

end Procedure

namespace Program

def mapAccumProcedures (f : σ → Expression → σ × Expression) (state : σ) :
    List Procedure → σ × List Procedure
  | [] => (state, [])
  | p :: ps =>
    let (state, p) := p.mapAccum f state
    let (state, ps) := mapAccumProcedures f state ps
    (state, p :: ps)

/-- Changes the expressions of all bodies, in order. -/
def mapAccum (f : σ → Expression → σ × Expression) (state : σ) (p : Program) : σ × Program :=
  let (state, procedures) := mapAccumProcedures f state p.procedures
  (state, { p with procedures })

def mapExpressions (f : Expression → Expression) (p : Program) : Program :=
  (p.mapAccum (fun () e => ((), f e)) ()).2

def truncateOperands (count : Nat) : Program → Program :=
  mapExpressions (Expression.truncate count)

def clearTypes : Program → Program :=
  mapExpressions Expression.clearTypes

/-- With another operator in the operation at an index, if there is one. -/
def setOperator? (index : Nat) (operator : Option Operator) (p : Program) : Option Program :=
  match p.mapAccum (Expression.setOperator operator) (some index) with
  | (none, p) => some p
  | (some _, _) => none

def popGlobal? (p : Program) : Option Program :=
  if p.globals.isEmpty then none else some { p with globals := p.globals.dropLast }

def popProcedure? (p : Program) : Option Program :=
  if p.procedures.isEmpty then none else some { p with procedures := p.procedures.dropLast }

/-- Changes the procedure at an index. -/
def editProcedure? (index : Nat) (edit : Procedure → Option Procedure) (p : Program) :
    Option Program := do
  let procedure ← p.procedures[index]?
  let procedure ← edit procedure
  return { p with procedures := p.procedures.set index procedure }

end Program

end ProcLang
