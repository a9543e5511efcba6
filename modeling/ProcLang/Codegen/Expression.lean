import ProcLang.Assembly.Instruction
import ProcLang.Codegen.Frame

/-! Code of expressions, for a stack machine: each leaves one word on the stack, and `rax`, `rcx`
and `rdx` hold what is worked on. -/
namespace ProcLang

open Assembly

/-- The label of the memory that backs a literal. Integers and booleans need none. -/
def Literal.label? (l : Literal) : Option Label :=
  match l.value with
  | .character _ => some (.character l.loc)
  | .text _ => some (.string l.loc)
  | .integer _ | .boolean _ => none

/-- The label of a literal that lies in memory. -/
def Literal.staticLabel (l : Literal) : Except Fault Label :=
  match l.label? with
  | some label => .ok label
  | none => .error (.internal .noStatic)

/-- The memory that backs a literal; a string ends with a zero. -/
def Literal.datum? (l : Literal) : Option Datum :=
  match l.value with
  | .character value => some ⟨.character l.loc, .byte, [value.toNat]⟩
  | .text bytes => some ⟨.string l.loc, .byte, bytes.map UInt8.toNat ++ [0]⟩
  | .integer _ | .boolean _ => none

namespace Codegen

/-- What the code of a body depends on. -/
structure Context where
  globals : List Declaration
  procedures : List Procedure
  frame : Frame

def instructions (is : List Instruction) : Code :=
  is.map .instruction

def widthOf (type : Ty) : Except Fault Width :=
  match type.width? with
  | some width => .ok width
  | none => .error (.internal (.noWidth type))

def Context.address (c : Context) (v : Variable) : Except Fault Address :=
  let address? := match v.binding with
    | some (.global index) => c.globals[index]?.map fun d => .data (.global d.name)
    | some (.localVar index) => c.frame.locals[index]?.map .frame
    | some (.parameter index) => c.frame.parameters[index]?.map .frame
    | none => none
  match address? with
  | some address => .ok address
  | none => .error (.internal (.noStorage v.name v.loc))

/-- Pushes what lies at an address. -/
def loadCode (width : Width) (address : Address) : Code :=
  instructions <|
    (if width.needsClear then [.clear] else []) ++ [.load width address, .push .rax]

/-- Only values of 32 bits can be pushed directly. -/
def isSmall (value : Int) : Bool :=
  -0x80000000 ≤ value && value < 0x80000000

def literalCode (l : Literal) : Except Fault Code :=
  match l.value with
  | .integer value =>
    if isSmall value.toInt then .ok (instructions [.pushValue value.toInt])
    else .ok (instructions [.moveValue .rax value.toInt, .push .rax])
  | .boolean value => .ok (instructions [.pushValue (if value then 1 else 0)])
  | .character _ => do
    let label ← l.staticLabel
    let width ← widthOf l.type.ty
    return loadCode width (.data label)
  | .text _ => do
    let label ← l.staticLabel
    return instructions [.loadAddress (.data label), .push .rax]

/-- Combines `count` operands from the first to the last, which lies deepest. -/
def foldCode (op : BinaryOp) (count : Nat) : Code :=
  (List.replicate (count - 1)
    (instructions [.pop .rax, .pop .rcx, .binary op, .push .rax])).flatten

def unaryCode (op : UnaryOp) : Code :=
  instructions [.pop .rax, .unary op, .push .rax]

def compareCode (c : Comparison) : Code :=
  instructions [.pop .rdx, .pop .rcx, .clear, .compare, .set c, .push .rax]

/-- Divides the first operand by the second and keeps one of the results. -/
def divideCode (result : Register) : Code :=
  instructions [.pop .rax, .pop .rcx, .extendSign, .divide, .push result]

/-- The code that follows the operands. Operators on storage and calls have code of their own. -/
def plainCode (op : Operator) (count : Nat) : Code :=
  match op with
  | .addition => foldCode .add count
  | .subtraction => foldCode .sub count
  | .multiplication => foldCode .imul count
  | .bitwiseAnd | .logicalAnd => foldCode .and count
  | .bitwiseOr | .logicalOr => foldCode .or count
  | .bitwiseXor => foldCode .xor count
  | .shiftLeft => foldCode .sal count
  | .shiftRight => foldCode .sar count
  | .negation => unaryCode .neg
  | .bitwiseNot => unaryCode .not
  | .logicalNot => unaryCode .flip
  | .division => divideCode .rax
  | .modulus => divideCode .rdx
  | .equality => compareCode .equal
  | .notEquality => compareCode .notEqual
  | .lessThan => compareCode .less
  | .lessThanEquals => compareCode .lessEqual
  | .greaterThan => compareCode .greater
  | .greaterThanEquals => compareCode .greaterEqual
  | .dereference | .reference | .assignment | .call _ => []

/-- The code that follows the arguments of a call: they go to their registers, the stack is
aligned, and a copy of `rsp` on it restores the stack afterwards. -/
def callCode (callee : Procedure) (count : Nat) : Code :=
  instructions <|
    (argumentRegisters.take count).map .pop ++
    [.move .r10 .rsp, .alignStack, .push .r10, .push .r10] ++
    (if callee.isVariadic then [.moveValue .rax 0] else []) ++
    [.call (.procedure callee.name), .pop .rsp] ++
    (if callee.returns.ty.width? = some .byte then [.extendByte] else []) ++
    [.push .rax]

mutual

/-- Code that pushes the value of an expression. -/
def expressionCode (c : Context) : Expression → Except Fault Code
  | .literal l => literalCode l
  | .var v => do
    let address ← c.address v
    let type ← (Expression.var v).type
    let width ← widthOf type.ty
    return loadCode width address
  | .operation loc _ _ none _ => .error (.internal (.unboundCode loc))
  | .operation _ _ operands (some .dereference) type => do
    let code ← operandsCode c operands
    match type with
    | none => .error (.internal .untypedDereference)
    | some type =>
      let width ← widthOf type.ty
      return code ++ instructions [.pop .rcx] ++ loadCode width .pointer
  | .operation _ _ [e] (some .reference) _ => addressCode c e
  | .operation _ _ _ (some .reference) _ => .error (.internal .loneReference)
  | .operation _ _ [target, value] (some .assignment) _ => do
    let valueCode ← expressionCode c value
    let targetCode ← addressCode c target
    let type ← target.type
    let width ← widthOf type.ty
    return valueCode ++ targetCode ++
      instructions [.pop .rcx, .pop .rax, .store width, .push .rax]
  | .operation _ _ _ (some .assignment) _ => .error (.internal .loneAssignment)
  | .operation _ token operands (some (.call callee)) _ =>
    match callee.bind (c.procedures[·]?) with
    | none => .error (.internal (.unboundCall token.text))
    | some p =>
      if argumentRegisters.length < operands.length then
        .error (.internal (.overfullCall p.name operands.length))
      else do
        let code ← operandsCode c operands
        return code ++ callCode p operands.length
  | .operation _ _ operands (some op) _ => do
    let code ← operandsCode c operands
    return code ++ plainCode op operands.length

/-- Code that pushes the address of a storage location. -/
def addressCode (c : Context) : Expression → Except Fault Code
  | .var v => do
    let address ← c.address v
    return instructions [.loadAddress address, .push .rax]
  | .operation _ _ [e] (some .dereference) _ => expressionCode c e
  | .operation _ _ _ (some .dereference) _ => .error (.internal .loneDereference)
  | e => .error (.internal (.noAddress e.display))

/-- Operands are evaluated from the last to the first, which ends on top of the stack. -/
def operandsCode (c : Context) : List Expression → Except Fault Code
  | [] => .ok []
  | e :: es => do
    let rest ← operandsCode c es
    let first ← expressionCode c e
    return rest ++ first

end

end Codegen

end ProcLang
