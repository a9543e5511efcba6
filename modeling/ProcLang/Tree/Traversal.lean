import ProcLang.Tree.Program

/-! The expressions of a program in source order, a parent before its operands. -/
namespace ProcLang

namespace Expression

mutual

/-- An expression and all that it is made of. -/
def parts : Expression → List Expression
  | .literal l => [.literal l]
  | .var v => [.var v]
  | .operation loc token operands operator type =>
    .operation loc token operands operator type :: operandParts operands

def operandParts : List Expression → List Expression
  | [] => []
  | e :: es => e.parts ++ operandParts es

end

def literal? : Expression → Option Literal
  | .literal l => some l
  | _ => none

end Expression

namespace Statement

mutual

/-- The expressions that a statement evaluates. -/
def expressions : Statement → List Expression
  | .block _ body => allExpressions body
  | .ifThen _ condition yes => condition :: yes.expressions
  | .ifThenElse _ condition yes no => condition :: yes.expressions ++ no.expressions
  | .loop _ condition body => condition :: body.expressions
  | .ret _ value => value.toList
  | .expression e => [e]

def allExpressions : List Statement → List Expression
  | [] => []
  | s :: ss => s.expressions ++ allExpressions ss

end

/-- All expressions in a statement. -/
def parts (s : Statement) : List Expression :=
  s.expressions.flatMap Expression.parts

end Statement

/-- All expressions in the bodies of a program. -/
def Program.parts (p : Program) : List Expression :=
  p.procedures.flatMap fun q => (q.body?.map Statement.parts).getD []

end ProcLang
