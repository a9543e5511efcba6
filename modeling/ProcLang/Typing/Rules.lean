import ProcLang.Pass
import ProcLang.Tree.Program

/-! What each operator asks of its operands, and the type that it gives. -/
namespace ProcLang

namespace Signature

/-- Parameters that each take one argument of a known type: those before any `etcetera`. -/
def fixed (s : Signature) : Nat :=
  (s.parameters.takeWhile Option.isSome).length

/-- The type wanted for an argument. Arguments past the fixed ones may have any. -/
def wanted? (s : Signature) (index : Nat) : Option TypeAt :=
  (s.parameters.takeWhile Option.isSome)[index]?.join

def checkCount (s : Signature) (loc count : Nat) : Except Fault Unit :=
  if maxArguments < count then .error (.located loc (.tooManyArguments s.name count))
  else if s.isVariadic && s.fixed ≤ count || !s.isVariadic && count = s.fixed then .ok ()
  else .error (.located loc (.argumentCount s.name s.fixed s.isVariadic count))

end Signature

/-- The declarations that a body is checked against. -/
structure Typing.Context where
  globals : List Declaration
  parameters : List Parameter
  locals : List Declaration
  signatures : List Signature
  returns : TypeAt

namespace Typing.Context

def declaration? (c : Typing.Context) : Storage → Option Declaration
  | .parameter index => c.parameters[index]?.bind Parameter.declaration?
  | .localVar index => c.locals[index]?
  | .global index => c.globals[index]?

/-- The declared type, at the position of its use. -/
def variableType (c : Typing.Context) (v : Variable) : Except Fault TypeAt :=
  match v.binding with
  | none => .error (.located v.loc (.undeclaredVariable v.name))
  | some storage =>
    match c.declaration? storage with
    | none => .error (.internal (.missingDeclaration v.name storage))
    | some d => .ok (d.type.moveTo v.loc)

end Typing.Context

namespace Operator

/-- The type of all operands, for the operators that ask the same of each of them. -/
def operandType? : Operator → Option Ty
  | .negation | .multiplication | .division | .modulus | .bitwiseAnd | .bitwiseOr | .bitwiseXor
  | .bitwiseNot | .shiftLeft | .shiftRight | .lessThan | .lessThanEquals | .greaterThan
  | .greaterThanEquals => some .int
  | .logicalAnd | .logicalOr | .logicalNot => some .bool
  | _ => none

/-- What is asked before any operand is looked at. -/
def checkCount (op : Operator) (c : Typing.Context) (loc : Nat) (token : Token) (count : Nat) :
    Except Fault Unit :=
  match op with
  | .subtraction | .equality | .notEquality | .assignment =>
    if count = 2 then .ok () else .error (.internal (.wantsTwo op))
  | .dereference | .reference =>
    if count = 1 then .ok () else .error (.internal (.wantsOne op))
  | .call none => .error (.located token.loc (.undeclaredProcedure token.text))
  | .call (some index) =>
    match c.signatures[index]? with
    | none => .error (.internal (.missingProcedure loc index))
    | some s => s.checkCount loc count
  | _ => .ok ()

/-- The operand at an index must be a storage location. -/
def wantsPlace (op : Operator) (index : Nat) : Bool :=
  match op with
  | .assignment | .reference => index = 0
  | _ => false

/-- What is asked of an operand once it has a type, given the types of those before it. -/
def checkOperand (op : Operator) (c : Typing.Context) (before : List TypeAt) (operand : Expression)
    (type : TypeAt) : Except Fault Unit :=
  let refuse cause := .error (.located operand.loc cause)
  match op with
  | .addition =>
    if type.ty.isPointer then
      if before.any (·.ty.isPointer) then refuse .twoPointers else .ok ()
    else if type.ty = .int then .ok ()
    else refuse (.addend type.ty)
  | .dereference =>
    match type.ty with
    | .pointer .void => refuse .voidPointer
    | .pointer _ => .ok ()
    | found => refuse (.notPointer found)
  | .call (some index) =>
    match c.signatures[index]?.bind (·.wanted? before.length) with
    | none => .ok ()
    | some wanted =>
      if type.ty = wanted.ty then .ok ()
      else refuse (.argument operand.display type.ty wanted.ty)
  | _ =>
    match op.operandType? with
    | none => .ok ()
    | some wanted => if type.ty = wanted then .ok () else refuse (.operand op type.ty)

end Operator

/-- The type of an operation, and the warning that it gives rise to. -/
structure Judgement where
  type : TypeAt
  warning : Option Warning

namespace Judgement

def silent (type : TypeAt) : Judgement := ⟨type, none⟩

/-- A `void*` may be assigned to any pointer, with a warning unless that is a `void*` too. All
else is assigned only to its own type. -/
def assignment (loc valueLoc : Nat) (target value : TypeAt) : Except Fault Judgement :=
  if target.ty.isPointer && value.ty = .pointer .void then
    .ok ⟨target.moveTo loc, if target.ty = .pointer .void then none else some ⟨loc, target.ty⟩⟩
  else if target.ty = value.ty then .ok (silent (target.moveTo loc))
  else .error (.located valueLoc (.assignment value.ty target.ty))

/-- An integer may be taken from an integer or from a pointer. -/
def subtraction (loc leftLoc rightLoc : Nat) (left right : TypeAt) : Except Fault Judgement :=
  if left.ty ≠ .int ∧ ¬left.ty.isPointer then .error (.located leftLoc (.minuend left.ty))
  else if right.ty ≠ .int then .error (.located rightLoc (.subtrahend right.ty))
  else .ok (silent (left.moveTo loc))

end Judgement

namespace Operator

/-- The type of a whole operation at `loc`, from operands that have been checked. -/
def judge (op : Operator) (c : Typing.Context) (loc : Nat) (operands : List Expression)
    (types : List TypeAt) : Except Fault Judgement :=
  match op with
  | .addition =>
    match types.find? (·.ty.isPointer) with
    | some pointer => .ok (.silent (pointer.moveTo loc))
    | none => .ok (.silent (.int loc))
  | .subtraction =>
    match operands, types with
    | [l, r], [left, right] => Judgement.subtraction loc l.loc r.loc left right
    | _, _ => .error (.internal (.wantsTwo op))
  | .equality | .notEquality =>
    match types with
    | [left, right] =>
      if left.ty = right.ty then .ok (.silent (.bool loc))
      else .error (.located loc (.unlike op left.ty right.ty))
    | _ => .error (.internal (.wantsTwo op))
  | .dereference =>
    match types with
    | [.pointer base _] => .ok (.silent (base.moveTo loc))
    | _ => .error (.internal (.wantsOne op))
  | .reference =>
    match types with
    | [type] => .ok (.silent (.pointer type loc))
    | _ => .error (.internal (.wantsOne op))
  | .assignment =>
    match operands, types with
    | [_, v], [target, value] => Judgement.assignment loc v.loc target value
    | _, _ => .error (.internal (.wantsTwo op))
  | .call (some index) =>
    match c.signatures[index]? with
    | some s => .ok (.silent (s.returns.moveTo loc))
    | none => .error (.internal (.missingProcedure loc index))
  | .lessThan | .lessThanEquals | .greaterThan | .greaterThanEquals
  | .logicalAnd | .logicalOr | .logicalNot => .ok (.silent (.bool loc))
  | _ => .ok (.silent (.int loc))

end Operator

end ProcLang
