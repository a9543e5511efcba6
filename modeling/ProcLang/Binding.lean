import ProcLang.Pass
import ProcLang.Tree.Program

/-! Binding: operators are chosen by their number of operands, variables are attached to storage
and calls to procedures. A name that stands for nothing is left alone. -/
namespace ProcLang

/-- The names that a body sees. -/
structure Scope where
  own : SymbolTable
  globals : SymbolTable
  procedures : SymbolTable

namespace Scope

/-- A procedure's own names hide globals, and these hide procedures. -/
def lookup (s : Scope) (name : String) : Option Symbol :=
  (s.own.lookup name).or ((s.globals.lookup name).or (s.procedures.lookup name))

def bindVariable (s : Scope) (v : Variable) : Pass Variable Unit :=
  match s.lookup v.name with
  | some (.var storage) =>
    ⟨{ v with binding := some storage }, [.bound v.name v.loc storage], .ok ()⟩
  | some (.procedure _) => .stop v (.located v.loc (.procedureAsVariable v.name))
  | none => ⟨v, [.unbound v.name v.loc], .ok ()⟩

/-- The operator of an operation that may already have one. -/
def resolve (token : Token) (count : Nat) : Option Operator → Traced Operator
  | some operator => pure operator
  | none => do
    let operator ← Traced.ofExcept (Operator.resolve token count)
    Traced.emit (.resolved token count operator)
    return operator

/-- The procedure that a name calls. -/
def callee (s : Scope) (token : Token) : Traced (Option Nat) :=
  match s.lookup token.text with
  | some (.procedure index) => pure (some index)
  | some (.var _) =>
    Traced.ofExcept (.error (.located token.loc (.variableAsProcedure token.text)))
  | none => do
    Traced.emit (.unboundCall token.text token.loc)
    return none

/-- The operator of an operation; a call without a procedure is looked up. -/
def bindOperator (s : Scope) (token : Token) (count : Nat) (known : Option Operator) :
    Traced Operator := do
  match ← resolve token count known with
  | .call none =>
    let index ← s.callee token
    return .call index
  | operator => return operator

mutual

def bindExpression (s : Scope) : Expression → Pass Expression Unit
  | .literal l => ⟨.literal l, [], .ok ()⟩
  | .var v => (s.bindVariable v).mapTree .var
  | .operation loc token operands known type =>
    let bound := s.bindOperator token operands.length known
    match bound.result with
    | .error fault =>
      ⟨.operation loc token operands known type, bound.events, .error fault⟩
    | .ok operator =>
      let rest := s.bindOperands operands
      ⟨.operation loc token rest.tree (some operator) type, bound.events ++ rest.events,
        rest.result⟩

def bindOperands (s : Scope) : List Expression → Pass (List Expression) Unit
  | [] => ⟨[], [], .ok ()⟩
  | e :: es =>
    ((s.bindExpression e).andThen es fun _ => s.bindOperands es).mapTree fun (e, es) => e :: es

end

mutual

def bindStatement (s : Scope) : Statement → Pass Statement Unit
  | .block loc body => (s.bindStatements body).mapTree (.block loc)
  | .ifThen loc condition yes =>
    ((s.bindExpression condition).andThen yes fun _ => s.bindStatement yes).mapTree
      fun (condition, yes) => .ifThen loc condition yes
  | .ifThenElse loc condition yes no =>
    ((s.bindExpression condition).andThen (yes, no) fun _ =>
      (s.bindStatement yes).andThen no fun _ => s.bindStatement no).mapTree
      fun (condition, yes, no) => .ifThenElse loc condition yes no
  | .loop loc condition body =>
    ((s.bindExpression condition).andThen body fun _ => s.bindStatement body).mapTree
      fun (condition, body) => .loop loc condition body
  | .ret loc none => ⟨.ret loc none, [], .ok ()⟩
  | .ret loc (some value) => (s.bindExpression value).mapTree fun value => .ret loc (some value)
  | .expression e => (s.bindExpression e).mapTree .expression

def bindStatements (s : Scope) : List Statement → Pass (List Statement) Unit
  | [] => ⟨[], [], .ok ()⟩
  | t :: ts =>
    ((s.bindStatement t).andThen ts fun _ => s.bindStatements ts).mapTree fun (t, ts) => t :: ts

end

end Scope

namespace Program

/-- The names that the body of a procedure sees. -/
def scope (p : Program) (procedure : Procedure) : Scope :=
  ⟨procedure.symbols, p.globalTable, p.procedureTable⟩

def bindProcedure (p : Program) (procedure : Procedure) : Pass Procedure Unit :=
  match procedure.implementation with
  | .external => ⟨procedure, [], .ok ()⟩
  | .internal locals body =>
    (((p.scope procedure).bindStatement body).logged (.boundProcedure procedure.name)).mapTree
      fun body => { procedure with implementation := .internal locals body }

def bindProcedures (p : Program) : List Procedure → Pass (List Procedure) Unit
  | [] => ⟨[], [], .ok ()⟩
  | q :: qs =>
    ((p.bindProcedure q).andThen qs fun _ => p.bindProcedures qs).mapTree fun (q, qs) => q :: qs

/-- Binds every body, in order. -/
def bind (p : Program) : Pass Program Unit :=
  (p.bindProcedures p.procedures).mapTree fun procedures => { p with procedures }

end Program

end ProcLang
