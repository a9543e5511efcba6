import ProcLang.Tree.Expression

/-! Declarations, their symbol tables, and whole programs. -/
namespace ProcLang

/-- A global, a local or a parameter. -/
structure Declaration where
  name : String
  type : TypeAt
  loc : Nat
  deriving DecidableEq, Repr

inductive Parameter where
  | var (d : Declaration)
  /-- Any number of further arguments, of any type. -/
  | etcetera (loc : Nat)
  deriving DecidableEq, Repr

namespace Parameter

def declaration? : Parameter → Option Declaration
  | .var d => some d
  | .etcetera _ => none

def isEtcetera (p : Parameter) : Bool :=
  p.declaration?.isNone

end Parameter

abbrev SymbolTable := List (String × Symbol)

namespace SymbolTable

/-- Enters names in order. A name that is already there is a mistake at its own position. -/
def declareAll (table : SymbolTable) : List (String × Nat × Symbol) → Except Fault SymbolTable
  | [] => .ok table
  | (name, loc, symbol) :: rest =>
    match table.lookup name with
    | some _ => .error (.located loc (.duplicate name))
    | none => declareAll (table ++ [(name, symbol)]) rest

end SymbolTable

inductive Implementation where
  /-- The procedure is part of the program. -/
  | internal (locals : List Declaration) (body : Statement)
  /-- The procedure is linked in. -/
  | external
  deriving Repr

structure Procedure where
  name : String
  loc : Nat
  returns : TypeAt
  parameters : List Parameter
  implementation : Implementation
  /-- Parameters and locals, which share their names. -/
  symbols : SymbolTable
  deriving Repr

/-- What a call needs to know; `none` stands for `etcetera`. -/
structure Signature where
  name : String
  returns : TypeAt
  parameters : List (Option TypeAt)
  deriving DecidableEq, Repr

/-- Some parameter is `etcetera`. -/
def Signature.isVariadic (s : Signature) : Bool :=
  s.parameters.any Option.isNone

namespace Procedure

def isExternal (p : Procedure) : Bool :=
  match p.implementation with
  | .internal .. => false
  | .external => true

def locals (p : Procedure) : List Declaration :=
  match p.implementation with
  | .internal locals _ => locals
  | .external => []

def body? (p : Procedure) : Option Statement :=
  match p.implementation with
  | .internal _ body => some body
  | .external => none

/-- The last parameter is `etcetera`. -/
def isVariadic (p : Procedure) : Bool :=
  p.parameters.getLast?.any Parameter.isEtcetera

def signature (p : Procedure) : Signature :=
  ⟨p.name, p.returns, p.parameters.map fun q => q.declaration?.map Declaration.type⟩

/-- The names that a body sees first: parameters, then locals. -/
def entries (parameters : List Parameter) (locals : List Declaration) :
    List (String × Nat × Symbol) :=
  parameters.zipIdx.filterMap (fun (p, i) =>
    p.declaration?.map fun d => (d.name, d.loc, .var (.parameter i))) ++
  locals.zipIdx.map fun (d, i) => (d.name, d.loc, .var (.localVar i))

/-- A procedure with the table of its names. -/
def build (name : Token) (returns : TypeAt) (parameters : List Parameter)
    (implementation : Implementation) : Except Fault Procedure := do
  let locals := match implementation with
    | .internal locals _ => locals
    | .external => []
  let symbols ← SymbolTable.declareAll [] (entries parameters locals)
  return ⟨name.text, name.loc, returns, parameters, implementation, symbols⟩

end Procedure

/-- A compilation unit. Its tables are made once and then only read. -/
structure Program where
  globals : List Declaration
  procedures : List Procedure
  globalTable : SymbolTable
  procedureTable : SymbolTable
  deriving Repr

namespace Program

/-- A program with the tables of its names, globals first. -/
def build (globals : List Declaration) (procedures : List Procedure) : Except Fault Program := do
  let globalTable ← SymbolTable.declareAll [] <|
    globals.zipIdx.map fun (d, i) => (d.name, d.loc, .var (.global i))
  let procedureTable ← SymbolTable.declareAll [] <|
    procedures.zipIdx.map fun (p, i) => (p.name, p.loc, .procedure i)
  return ⟨globals, procedures, globalTable, procedureTable⟩

end Program

end ProcLang
