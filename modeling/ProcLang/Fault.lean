import ProcLang.Text.Escape
import ProcLang.Ty
import ProcLang.Operator
import ProcLang.Tree.Storage

/-! Why a program is refused. A `Cause` is a mistake in the program that is compiled, found at a
position of its source. A `Breach` is a tree that a pass should never have been given. -/
namespace ProcLang

/-- Broad classes of mistakes. -/
inductive ErrorKind where
  | malformedToken | grammar | declaration | binding | arity | type | lvalue
  deriving DecidableEq, Repr

namespace ErrorKind

def label : ErrorKind → String
  | .malformedToken => "MalformedToken"
  | .grammar => "Syntax"
  | .declaration => "Declaration"
  | .binding => "Binding"
  | .arity => "Arity"
  | .type => "Type"
  | .lvalue => "LValue"

def all : List ErrorKind :=
  [.malformedToken, .grammar, .declaration, .binding, .arity, .type, .lvalue]

end ErrorKind

/-- What the grammar asks for at a place where only one thing can stand. -/
inductive Expectation where
  | variableName | typeName | procedureName | parameterList
  | commaOrBracket | commaOrParen
  | sizeofOpen | sizeofClose | operationClose
  deriving DecidableEq, Repr

def Expectation.text : Expectation → String
  | .variableName => "variable name"
  | .typeName => "type name"
  | .procedureName => "procedure name"
  | .parameterList => "parameter list"
  | .commaOrBracket => "',' or ']'"
  | .commaOrParen => "',' or ')'"
  | .sizeofOpen => "'(' after sizeof"
  | .sizeofClose => "')' at end of sizeof"
  | .operationClose => "')' at end of operation"

/-- Registers that carry arguments, and so the most arguments that a call passes. -/
def maxArguments : Nat := 6

/-- A mistake in the compiled program. `found` and `wanted` are types, `shown` is an expression as
text, and `got` describes a token. -/
inductive Cause where
  | malformedToken (c : Char)
  | unendedComment
  | invalidDigit
  | unendedCharacter
  | unendedText
  | unendedEscape
  | invalidEscape (c : Char)
  | expected (what : Expectation) (got : String)
  | expectedOperator (got : String)
  | unexpectedToken (got : String)
  | invalidTypeName (name : String)
  | invalidBody (procedure : String)
  | unclosedBlock (start : Nat)
  | unendedBlock
  | missingCondition
  | missingThen
  | missingElse
  | missingLoopCondition
  | missingLoopBody
  | missingOperator
  | integerRange
  | unsized (found : Ty)
  | duplicate (name : String)
  | notOperator (text : String)
  | operandCount (arity : Arity) (text : String) (count : Nat)
  | procedureAsVariable (name : String)
  | variableAsProcedure (name : String)
  | voidVariable (name : String)
  | internalEtcetera
  | misplacedEtcetera
  | tooManyParameters (procedure : String) (count : Nat)
  | returnType (found wanted : Ty)
  | condition (found : Ty)
  | notPlace (shown : String)
  | undeclaredVariable (name : String)
  | undeclaredProcedure (name : String)
  | operand (operator : Operator) (found : Ty)
  | minuend (found : Ty)
  | subtrahend (found : Ty)
  | addend (found : Ty)
  | twoPointers
  | unlike (operator : Operator) (left right : Ty)
  | notPointer (found : Ty)
  | voidPointer
  | assignment (found wanted : Ty)
  | tooManyArguments (procedure : String) (count : Nat)
  | argumentCount (procedure : String) (fixed : Nat) (variadic : Bool) (count : Nat)
  | argument (shown : String) (found wanted : Ty)
  deriving DecidableEq, Repr

namespace Cause

def kind : Cause → ErrorKind
  | .malformedToken _ | .unendedComment | .invalidDigit | .unendedCharacter | .unendedText
  | .unendedEscape | .invalidEscape _ => .malformedToken
  | .expected .. | .expectedOperator _ | .unexpectedToken _ | .invalidTypeName _
  | .invalidBody _ | .unclosedBlock _ | .unendedBlock | .missingCondition | .missingThen
  | .missingElse | .missingLoopCondition | .missingLoopBody | .missingOperator | .integerRange
  | .unsized _ | .notOperator _ => .grammar
  | .duplicate _ | .internalEtcetera | .misplacedEtcetera => .declaration
  | .procedureAsVariable _ | .variableAsProcedure _ | .undeclaredVariable _
  | .undeclaredProcedure _ => .binding
  | .operandCount .. | .tooManyParameters .. | .tooManyArguments .. | .argumentCount .. => .arity
  | .voidVariable _ | .returnType .. | .condition _ | .operand .. | .minuend _ | .subtrahend _
  | .addend _ | .twoPointers | .unlike .. | .notPointer _ | .voidPointer | .assignment ..
  | .argument .. => .type
  | .notPlace _ => .lvalue

def message : Cause → String
  | .malformedToken c => s!"Malformed token: '{Text.escapeSingle c}'"
  | .unendedComment => "Input ended mid-comment"
  | .invalidDigit => "Malformed integer (invalid digit)"
  | .unendedCharacter => "Quoted character incomplete"
  | .unendedText => "String literal incomplete"
  | .unendedEscape => "Incomplete escaped-character sequence at end of input"
  | .invalidEscape c => s!"Invalid escape character: {Text.escapeSingle c}"
  | .expected what got => s!"expected {what.text}, but got \"{got}\""
  | .expectedOperator got => s!"expected an operator, but got \"{got}\""
  | .unexpectedToken got => s!"unexpected token \"{got}\""
  | .invalidTypeName name => s!"Invalid type name {name}"
  | .invalidBody procedure => s!"Invalid procedure body for {procedure}"
  | .unclosedBlock start => s!"Expected closing brace for multi-statement started at @{start}"
  | .unendedBlock => "Input ends before close of multi-statement"
  | .missingCondition => "Conditional expression expected"
  | .missingThen => "Conditional then-branch expected"
  | .missingElse => "Incomplete else-branch"
  | .missingLoopCondition => "Loop condition expected"
  | .missingLoopBody => "Loop body expected"
  | .missingOperator => "Operator expected after '('"
  | .integerRange => "Integer literal cannot be stored in an int"
  | .unsized found => s!"sizeof requires a sized type, not {found.display}"
  | .duplicate name => s!"Duplicate declaration of '{name}'"
  | .notOperator text => s!"'{text}' is not an operator"
  | .operandCount arity text count =>
    s!"{arity.name} ({text}) requires {arity.bounds} operand(s), found {count}"
  | .procedureAsVariable name => s!"cannot use a procedure as a variable: {name}"
  | .variableAsProcedure name => s!"cannot use a variable as a procedure: {name}"
  | .voidVariable name => s!"Cannot define variable of void type: {name}"
  | .internalEtcetera => "Internal procedures may not use etcetera"
  | .misplacedEtcetera => "Parameter list may only use etcetera at the end"
  | .tooManyParameters procedure count =>
    s!"{procedure} declares {count} parameters; at most {maxArguments} are supported"
  | .returnType found wanted =>
    s!"Return type {found.display} does not match required type {wanted.display}"
  | .condition found => s!"Condition must be a boolean value, found {found.display}"
  | .notPlace shown => s!"{shown} is not an l-value"
  | .undeclaredVariable name => s!"Use of undeclared variable {name}"
  | .undeclaredProcedure name => s!"Call to undeclared procedure {name}"
  | .operand operator found => s!"Operand of {operator.description} cannot be {found.display}"
  | .minuend found => s!"First subtraction operand cannot be {found.display}"
  | .subtrahend found => s!"Second subtraction operand cannot be {found.display}"
  | .addend found => s!"Invalid type of operand for addition: {found.display}"
  | .twoPointers => "More than one pointer as operand in addition operation"
  | .unlike operator left right =>
    s!"Types of operands are not equivalent in {operator.description} operation: " ++
      s!"{left.display} and {right.display}"
  | .notPointer found => s!"Dereference operand is not a pointer: {found.display}"
  | .voidPointer => "Pointers to void cannot be dereferenced"
  | .assignment found wanted =>
    s!"Cannot assign expression of type {found.display} to l-value of type {wanted.display}"
  | .tooManyArguments procedure count =>
    s!"Call to {procedure} passes {count} arguments; at most {maxArguments} are supported"
  | .argumentCount procedure fixed variadic count =>
    let wanted := if variadic then s!"at least {fixed}" else s!"{fixed}"
    s!"{procedure} expects {wanted} argument(s), found {count}"
  | .argument shown found wanted =>
    s!"Argument {shown} is of type {found.display}, expecting type {wanted.display}"

end Cause

/-- A tree that breaks what a pass relies on. -/
inductive Breach where
  | untyped (shown : String)
  | missingDeclaration (name : String) (storage : Storage)
  | unboundOperation (loc : Nat)
  | missingProcedure (loc : Nat) (index : Nat)
  | wantsOne (operator : Operator)
  | wantsTwo (operator : Operator)
  | noRegister (index : Nat) (procedure : String)
  | unboundCode (loc : Nat)
  | noStorage (name : String) (loc : Nat)
  | noWidth (found : Ty)
  | untypedDereference
  | loneDereference
  | loneReference
  | loneAssignment
  | noAddress (shown : String)
  | unboundCall (text : String)
  | overfullCall (procedure : String) (count : Nat)
  | noOperator (kind : Token.Kind) (count : Nat)
  | noStatic
  deriving DecidableEq, Repr

def Breach.message : Breach → String
  | .untyped shown => s!"expression {shown} used before verification"
  | .missingDeclaration name storage =>
    s!"{name} is bound to missing declaration {storage.display}"
  | .unboundOperation loc => s!"operation at @{loc} verified before binding"
  | .missingProcedure loc index => s!"call at @{loc} bound to missing procedure {index}"
  | .wantsOne operator => s!"{operator.description} needs exactly one operand"
  | .wantsTwo operator => s!"{operator.description} needs exactly two operands"
  | .noRegister index procedure => s!"parameter {index} of {procedure} has no argument register"
  | .unboundCode loc => s!"operation at @{loc} reached code generation unbound"
  | .noStorage name loc => s!"variable {name} at @{loc} has no storage"
  | .noWidth found => s!"type {found.display} has no storage size"
  | .untypedDereference => "dereference has no type"
  | .loneDereference => "dereference without a single operand"
  | .loneReference => "reference without a single operand"
  | .loneAssignment => "assignment without two operands"
  | .noAddress shown => s!"{shown} is not an l-value"
  | .unboundCall text => s!"call to {text} is unbound"
  | .overfullCall procedure count => s!"call to {procedure} passes {count} arguments"
  | .noOperator kind count => s!"no operator for {kind.label} with {count} operand(s)"
  | .noStatic => "literal has no static storage"

inductive Fault where
  | located (loc : Nat) (cause : Cause)
  | internal (breach : Breach)
  deriving DecidableEq, Repr

namespace Operator

/-- The operator of a token with a number of operands, if the token accepts that number. -/
def resolve (token : Token) (count : Nat) : Except Fault Operator :=
  match Arity.ofKind? token.kind with
  | none => .error (.located token.loc (.notOperator token.text))
  | some arity =>
    if arity.accepts count then
      match ofKind? token.kind count with
      | some operator => .ok operator
      | none => .error (.internal (.noOperator token.kind count))
    else .error (.located token.loc (.operandCount arity token.text count))

end Operator

end ProcLang
